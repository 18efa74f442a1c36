import Nget.Retrieve

/-! What a retrieval records as retrieved. A file's message-id comes into the record only after `decode`
    returned 0, but `decode` also returns 0 when it is given no part. So where incomplete files are to be
    got, a file of which nothing was obtained is recorded, and only there. -/

namespace Nget

/-! ### The record -/

theorem MetaMidInfo.check_insert {f : NntpFile} {now : Int64} {mid : Text} {m : MetaMidInfo}
    (h : (m.insert f now).check mid = true) : m.check mid = true ∨ f.bamid = mid := by
  unfold MetaMidInfo.insert at h
  split at h
  · next p _ =>
    generalize p.articles = sas at h
    induction sas generalizing m with
    | nil => exact Or.inl h
    | cons sa sas ih =>
      rw [List.foldl_cons] at h
      rcases ih h with h | h
      · obtain ⟨g, hg, hcheck⟩ := List.any_eq_true.mp h
        obtain ⟨g, hg', rfl⟩ := List.mem_map.mp hg
        split at hcheck
        · rw [MidInfo.check_insert, Bool.or_eq_true, decide_eq_true_eq] at hcheck
          rcases hcheck with hcheck | hmid
          · exact Or.inl (List.any_eq_true.mpr ⟨g, hg', hcheck⟩)
          · exact Or.inr hmid
        · exact Or.inl (List.any_eq_true.mpr ⟨g, hg', hcheck⟩)
      · exact Or.inr h
  · exact Or.inl h

section
variable {W : Type} {out : Outside W} {options : NgetOptions} {fr : NntpFileRetr}

/-! ### The parts of a file -/

/-- Whether the temp file of a part is obtained: it is there, or it is downloaded. -/
def attempt (out : Outside W) (options : NgetOptions) (fr : NntpFileRetr) (p : NntpPart) (w : W) : Except Text Bool × W :=
  let fn := tempName out.checksum options fr p
  if out.fexists fn w then (.ok true, w)
  else if options.has getfilesNoconnect then (.ok false, w)
  else
    match out.doarticle p fn w with
    | (.error e, w) => (.error e, w)
    | (.ok r, w) => (.ok (r = 0), w)

/-- No part's temp file is obtained, and no attempt is cut off. -/
def nothingObtained (out : Outside W) (options : NgetOptions) (fr : NntpFileRetr) : List NntpPart → W → Bool
  | [], _ => true
  | p :: ps, w =>
    match attempt out options fr p w with
    | (.ok false, w) => nothingObtained out options fr ps w
    | _ => false

theorem retrievePart_eq {p : NntpPart} {st : PartsState W} (hlite : options.writelite = []) (hd : st.dlerr = false) :
    retrievePart out options fr p st =
      match attempt out options fr p st.world with
      | (.error e, world) => (some e, { st with world })
      | (.ok true, world) => (none, { st with
          fnbuf := st.fnbuf ++ [(p.partnum, tempName out.checksum options fr p)],
            bytesleft := st.bytesleft - out.bytes p, world })
      | (.ok false, world) => (none, { st with
          dlerr := !options.has getfilesGetincomplete, bytesleft := st.bytesleft - out.bytes p, world }) := by
  unfold retrievePart attempt
  simp only [hd, Bool.false_eq_true, if_false, hlite, List.isEmpty_nil, Bool.not_true]
  by_cases hex : out.fexists (tempName out.checksum options fr p) st.world = true
  · simp only [hex, if_true]
  · simp only [hex, if_false, Bool.false_eq_true]
    by_cases hno : options.has getfilesNoconnect = true
    · simp only [hno, if_true, show ¬(-1 : Int32) = 0 by decide, if_false]
      cases options.has getfilesGetincomplete <;> simp
    · simp only [hno, if_false, Bool.false_eq_true]
      obtain ⟨answer | r, w⟩ := out.doarticle p (tempName out.checksum options fr p) st.world
      · rfl
      · by_cases hr : r = 0
        · simp [hr]
        · cases options.has getfilesGetincomplete <;> simp [hr]

/-- Where incomplete files are to be got, the loop ends without an error, and its list of temp files is
    empty exactly when nothing was obtained. -/
theorem retrieveParts_incomplete (hlite : options.writelite = []) (hinc : options.has getfilesGetincomplete = true) :
    ∀ (ps : List NntpPart) (st st' : PartsState W), retrieveParts out options fr ps st = (none, st') → st.dlerr = false →
      st'.dlerr = false ∧ st.fnbuf.length ≤ st'.fnbuf.length ∧
        (st'.fnbuf.length = st.fnbuf.length ↔ nothingObtained out options fr ps st.world = true)
  | [], st, st', h, hd => by
    cases h
    exact ⟨hd, le_rfl, by simp [nothingObtained]⟩
  | p :: ps, st, st', h, hd => by
    unfold retrieveParts at h
    rw [retrievePart_eq hlite hd] at h
    unfold nothingObtained
    generalize attempt out options fr p st.world = attempted at h ⊢
    obtain ⟨answer | obtained, w⟩ := attempted
    · cases h
    · cases obtained with
      | false => exact retrieveParts_incomplete hlite hinc ps _ st' h (by simp [hinc])
      | true =>
        obtain ⟨hd', hle, -⟩ := retrieveParts_incomplete hlite hinc ps _ st' h hd
        simp only [List.length_append, List.length_singleton] at hle
        refine ⟨hd', by omega, ?_⟩
        simp only [Bool.false_eq_true, iff_false]
        omega

theorem retrieveParts_dlerr : ∀ (ps : List NntpPart) (st st' : PartsState W),
    retrieveParts out options fr ps st = (none, st') → st.dlerr = true → st'.dlerr = true
  | [], st, st', h, hd => by
    cases h
    exact hd
  | p :: ps, st, st', h, hd => by
    unfold retrieveParts retrievePart at h
    simp only [hd, if_true] at h
    exact retrieveParts_dlerr ps _ st' h rfl

/-- Where incomplete files are not to be got, a file without an error has every part. -/
theorem retrieveParts_complete (hlite : options.writelite = []) (hinc : options.has getfilesGetincomplete = false) :
    ∀ (ps : List NntpPart) (st st' : PartsState W), retrieveParts out options fr ps st = (none, st') → st'.dlerr = false →
      st'.fnbuf.length = st.fnbuf.length + ps.length
  | [], st, st', h, _ => by
    cases h
    rfl
  | p :: ps, st, st', h, hd' => by
    have hd : st.dlerr = false := by
      by_contra hd
      rw [retrieveParts_dlerr (p :: ps) st st' h (by simpa using hd)] at hd'
      cases hd'
    unfold retrieveParts at h
    rw [retrievePart_eq hlite hd] at h
    generalize attempt out options fr p st.world = attempted at h
    obtain ⟨answer | obtained, w⟩ := attempted
    · cases h
    · cases obtained with
      | false =>
        rw [retrieveParts_dlerr ps _ st' h (by simp [hinc])] at hd'
        cases hd'
      | true =>
        have := retrieveParts_complete hlite hinc ps _ st' h hd'
        simp only [List.length_append, List.length_singleton] at this
        rw [this, List.length_cons]
        omega

/-! ### A file -/

/-- The file is recorded only if a temp file of it was obtained and `decode` found no error. -/
def FileOutcome.Sound (o : FileOutcome W) : Prop := o.recorded = true → o.obtained ≠ [] ∧ o.derr = some 0

/-- Files are decoded, and nothing of this one is obtained although the loop goes through: incomplete files
    are to be got, or it has no parts. -/
def NothingToDecode (out : Outside W) (options : NgetOptions) (fr : NntpFileRetr) (w : W) : Prop :=
  options.has getfilesNodecode = false ∧ (options.has getfilesGetincomplete = true ∨ fr.file.parts = []) ∧
    nothingObtained out options fr fr.file.parts w = true

/-- What the body of the loop does with a file that it gets through. -/
structure Retrieved (out : Outside W) (options : NgetOptions) (fr : NntpFileRetr) (st st' : Retrieving W) (o : FileOutcome W)
    (ps : PartsState W) : Prop where
  parts : retrieveParts out options fr fr.file.parts { bytesleft := st.bytesleft, world := st.world } = (none, ps)
  retr : o.retr = fr
  before : o.before = st.world
  obtained : o.obtained = ps.fnbuf
  recorded : o.recorded = true ↔ (ps.dlerr = false ∧ options.has getfilesNodecode = false) ∧ o.derr = some 0
  nothing : ps.fnbuf = [] → ps.dlerr = false ∧ options.has getfilesNodecode = false → o.derr = some 0
  midinfo : ∀ mid, st'.midinfo.check mid = true → st.midinfo.check mid = true ∨ o.recorded = true ∧ o.retr.file.bamid = mid

theorem removeDupes_midinfo {flist : List (Text × UInt64)} {st : Retrieving W} :
    (removeDupes out fr flist st).midinfo = st.midinfo := rfl

theorem retrieveFile_retrieved {o : FileOutcome W} {st st' : Retrieving W}
    (h : retrieveFile out options fr st = (.ok o, st')) : ∃ ps, Retrieved out options fr st st' o ps := by
  unfold retrieveFile at h
  split at h
  · cases h
  · next ps hparts =>
    refine ⟨ps, ?_⟩
    dsimp only at h
    split at h
    · next hd =>
      cases h
      exact ⟨hparts, rfl, rfl, rfl, by simp [hd], by simp [hd], fun mid hmid => Or.inl hmid⟩
    · next hd =>
      split at h
      · next hno =>
        cases h
        exact ⟨hparts, rfl, rfl, rfl, by simp [hno], by simp [hno], fun mid hmid => Or.inl hmid⟩
      · next hno =>
        simp only [Bool.not_eq_true] at hd hno
        split at h
        · cases h
        · next derr flist w hdec =>
          have hnil : ps.fnbuf = [] → derr = 0 := fun hnil => by
            rw [hnil] at hdec
            cases hdec
            rfl
          split at h
          · next hzero =>
            cases h
            refine ⟨hparts, rfl, rfl, rfl, by simp [hd, hno, hzero], by simp [hzero], fun mid hmid => ?_⟩
            refine (@MetaMidInfo.check_insert fr.file (out.time w) _ _ ?_).imp id fun h => ⟨rfl, h⟩
            split at hmid
            · exact hmid
            · rw [removeDupes_midinfo] at hmid
              exact hmid
          · next hzero =>
            cases h
            exact ⟨hparts, rfl, rfl, rfl, by simp [hzero], fun h => absurd (hnil h) hzero, fun mid hmid => Or.inl hmid⟩

theorem retrieveFile_thrown {e : Text} {st st' : Retrieving W} (h : retrieveFile out options fr st = (.error e, st')) :
    st'.midinfo = st.midinfo := by
  unfold retrieveFile at h
  split at h
  · cases h
    rfl
  · dsimp only at h
    split at h
    · cases h
    · split at h
      · cases h
      · split at h
        · cases h
          rfl
        · split at h <;> cases h

theorem Retrieved.sound_iff {o : FileOutcome W} {st st' : Retrieving W} {ps : PartsState W}
    (hlite : options.writelite = [] ∨ options.has getfilesNodecode = true) (h : Retrieved out options fr st st' o ps) :
    o.Sound ↔ ¬NothingToDecode out options fr st.world := by
  unfold FileOutcome.Sound
  rw [h.recorded, h.obtained]
  by_cases hno : options.has getfilesNodecode = true
  · simp [NothingToDecode, hno]
  · have hlite := hlite.resolve_right hno
    rw [Bool.not_eq_true] at hno
    -- The list of temp files is empty after a loop without an error exactly where there is nothing to decode.
    have hempty : ps.dlerr = false ∧ ps.fnbuf = [] ↔ NothingToDecode out options fr st.world := by
      unfold NothingToDecode
      by_cases hinc : options.has getfilesGetincomplete = true
      · obtain ⟨hd, -, hlen⟩ := retrieveParts_incomplete hlite hinc _ _ _ h.parts rfl
        rw [← List.length_eq_zero_iff]
        simp only [List.length_nil] at hlen
        simp [hd, hno, hinc, hlen]
      · rw [Bool.not_eq_true] at hinc
        simp only [hno, hinc, Bool.false_eq_true, false_or, true_and]
        constructor
        · rintro ⟨hd, hnil⟩
          have hlen := retrieveParts_complete hlite hinc _ _ _ h.parts hd
          have hparts : fr.file.parts = [] := by
            rw [hnil, List.length_nil, Nat.zero_add] at hlen
            exact List.length_eq_zero_iff.mp hlen.symm
          exact ⟨hparts, by rw [hparts]; rfl⟩
        · rintro ⟨hparts, -⟩
          have := h.parts
          rw [hparts] at this
          cases this
          exact ⟨rfl, rfl⟩
    constructor
    · intro hsound hnone
      obtain ⟨hd, hnil⟩ := hempty.mpr hnone
      exact (hsound ⟨⟨hd, hno⟩, h.nothing hnil ⟨hd, hno⟩⟩).1 hnil
    · rintro hnone ⟨⟨hd, -⟩, hderr⟩
      exact ⟨fun hnil => hnone (hempty.mp ⟨hd, hnil⟩), hderr⟩

/-! ### A run -/

theorem eraseCurrent_midinfo {st : Retrieving W} : (eraseCurrent out options fr st).2.midinfo = st.midinfo := by
  unfold eraseCurrent
  dsimp only
  split
  · rfl
  · split <;> rfl

/-- Every outcome of a run is sound where there was something to decode, and a message-id comes into the
    record only with an outcome that says so. -/
structure RunSound (out : Outside W) (options : NgetOptions) (midinfo : MetaMidInfo) (r : RetrieveRun W) : Prop where
  outcomes : ∀ o ∈ r.outcomes, (o.Sound ↔ ¬NothingToDecode out options o.retr o.before)
  midinfo : ∀ mid, r.state.midinfo.check mid = true →
    midinfo.check mid = true ∨ ∃ o ∈ r.outcomes, o.recorded = true ∧ o.retr.file.bamid = mid

theorem retrieveLoop_sound (hlite : options.writelite = [] ∨ options.has getfilesNodecode = true) :
    ∀ (fuel : Nat) (st : Retrieving W), RunSound out options st.midinfo (retrieveLoop out options fuel st)
  | 0, st => ⟨by simp [retrieveLoop], fun mid h => Or.inl h⟩
  | fuel + 1, st => by
    unfold retrieveLoop
    split
    · exact ⟨by simp, fun mid h => Or.inl h⟩
    · next fr _ _ =>
      split
      · next e st1 hfile =>
        refine ⟨by simp, fun mid hmid => Or.inl ?_⟩
        rwa [retrieveFile_thrown hfile] at hmid
      · next o st1 hfile =>
        obtain ⟨ps, h⟩ := retrieveFile_retrieved hfile
        have hsound := h.sound_iff hlite
        rw [← h.retr, ← h.before] at hsound
        have herase := @eraseCurrent_midinfo W out options fr st1
        split
        · next e st2 hst2 =>
          rw [hst2] at herase
          refine ⟨by simpa using hsound, fun mid hmid => ?_⟩
          rw [herase] at hmid
          exact (h.midinfo mid hmid).imp id fun hrec => ⟨o, by simp, hrec⟩
        · next st2 hst2 =>
          rw [hst2] at herase
          have ih := retrieveLoop_sound hlite fuel st2
          refine ⟨?_, fun mid hmid => ?_⟩
          · simp only [List.forall_mem_cons]
            exact ⟨hsound, ih.outcomes⟩
          · rcases ih.midinfo mid hmid with hmid | ⟨o', ho', hrec⟩
            · rw [herase] at hmid
              exact (h.midinfo mid hmid).imp id fun hrec => ⟨o, by simp, hrec⟩
            · exact Or.inr ⟨o', List.mem_cons_of_mem _ ho', hrec⟩

theorem has_or_self {flags : UInt32} (hflags : flags ≠ 0) :
    NgetOptions.has { options with gflags := options.gflags ||| flags } flags = true := by
  have hand : (options.gflags ||| flags) &&& flags = flags := by
    rw [← UInt32.toBitVec_inj]
    ext i hi
    simp only [UInt32.toBitVec_and, UInt32.toBitVec_or, BitVec.getElem_and, BitVec.getElem_or]
    cases flags.toBitVec[i] <;> simp
  simp [NgetOptions.has, hand, hflags]

/-- In a retrieval, what comes into the record is the message-id of a file that was recorded, and a file that
    was gone through is recorded only with something obtained and decoded without an error, unless nothing
    of it was obtained and incomplete files are to be got and decoded. -/
theorem doretrieve_sound_iff (out : Outside W) (options : NgetOptions) (hunmark : options.has getfilesUnmark = false)
    (htest : options.has getfilesTestmode = false) (hmark : options.has getfilesMark = false) (fuel : Nat)
    (filec : NntpFilesU) (midinfo : MetaMidInfo) (w : W) :
    let r := nntpDoretrieve out options fuel filec midinfo w
    (∀ mid, r.state.midinfo.check mid = true →
      midinfo.check mid = true ∨ ∃ o ∈ r.outcomes, o.recorded = true ∧ o.retr.file.bamid = mid) ∧
    ∀ o ∈ r.outcomes,
      (o.Sound ↔ ¬(options.writelite = [] ∧ NothingToDecode out options o.retr o.before)) := by
  intro r
  simp only [r, nntpDoretrieve, hunmark, htest, hmark, Bool.false_eq_true, if_false]
  split
  · exact ⟨fun mid h => Or.inl h, by simp⟩
  · split
    · exact ⟨fun mid h => Or.inl h, by simp⟩
    · split
      · next filec w _ _ hlite =>
        have hno := @has_or_self options getfilesNodecode (by decide)
        have hloop := @retrieveLoop_sound W out _ (Or.inr hno) fuel
          { filec, midinfo, bytesleft := filec.bytes, filestot := UInt64.ofNat filec.files.length, world := w }
        refine ⟨hloop.midinfo, fun o ho => (hloop.outcomes o ho).trans ?_⟩
        have hne : options.writelite ≠ [] := by simpa using hlite
        simp [NothingToDecode, hno, hne]
      · next filec w _ _ hlite =>
        have hnil : options.writelite = [] := by simpa using hlite
        have hloop := @retrieveLoop_sound W out _ (Or.inl hnil) fuel
          { filec, midinfo, bytesleft := filec.bytes, filestot := UInt64.ofNat filec.files.length, world := w }
        refine ⟨hloop.midinfo, fun o ho => (hloop.outcomes o ho).trans ?_⟩
        simp [hnil]

end

/-! ### A file of which nothing is obtained -/

/-- Nothing is on disk, nothing can be downloaded, and there are no par files. -/
def emptyOutside : Outside Unit where
  fexists _ _ := false
  time _ := 0
  doarticle _ _ w := (.ok (-1), w)
  dowriteliteArticle _ _ w := (.ok (), w)
  uulib _ _ w := (.ok ⟨0, false, []⟩, w)
  saveText _ w := (.ok (), w)
  unlink _ w := w
  dupeMatch _ _ := false
  getInitialPars filec w := (.ok filec, w)
  maybeGetPxxs _ filec w := (.ok filec, w)
  bytes _ := 0
  checksum _ := 0

/-- A queue of one file of one part. -/
def sampleQueue : NntpFilesU :=
  ⟨0, [⟨[], [], { (default : NntpFile) with parts := [⟨1, [⟨1, [], 3, 0, 0⟩], 0, ['m']⟩], haveNum := 1 }, false⟩]⟩

/-- One article can be downloaded, and what is downloaded is decoded. -/
def decodingOutside : Outside Unit :=
  { emptyOutside with
    doarticle p _ w := (.ok (if p.messageid = ['m'] then 0 else -1), w)
    uulib _ _ w := (.ok ⟨0, false, [⟨false, true, 0, false, 0, true, ['f'], 3⟩]⟩, w) }

/-- A queue of two files of one part each. -/
def pairQueue : NntpFilesU :=
  ⟨0, [['m'], ['n']].map fun mid =>
    ⟨[], [], { (default : NntpFile) with parts := [⟨1, [⟨1, [], 3, 0, 0⟩], 0, mid⟩], haveNum := 1 }, false⟩⟩

/-- The file that was decoded is recorded, the one that was not downloaded is not. -/
theorem doretrieve_sound_sample : let r := nntpDoretrieve decodingOutside {} 3 pairQueue ⟨[([], {})]⟩ ()
    r.outcomes.map (·.recorded) = [true, false] ∧ r.state.midinfo.check ['m'] = true ∧
    (∀ mid, r.state.midinfo.check mid = true →
      MetaMidInfo.check ⟨[([], {})]⟩ mid = true ∨ ∃ o ∈ r.outcomes, o.recorded = true ∧ o.retr.file.bamid = mid) ∧
    ∀ o ∈ r.outcomes, o.Sound := by
  intro r
  obtain ⟨hmidinfo, hsound⟩ := doretrieve_sound_iff decodingOutside {} rfl rfl rfl 3 pairQueue ⟨[([], {})]⟩ ()
  have hparts : ∀ o ∈ r.outcomes, o.retr.file.parts ≠ [] := by decide +kernel
  refine ⟨by decide +kernel, by decide +kernel, hmidinfo, fun o ho => (hsound o ho).mpr ?_⟩
  rintro ⟨-, -, hinc | hnil, -⟩
  · cases hinc
  · exact hparts o ho hnil

/-- With incomplete files to be got and nothing obtained, the file is recorded as retrieved. -/
theorem doretrieve_records_nothing : ¬∀ (out : Outside Unit) (options : NgetOptions) (fuel : Nat) (filec : NntpFilesU)
    (midinfo : MetaMidInfo) (w : Unit), options.has getfilesUnmark = false → options.has getfilesTestmode = false →
      options.has getfilesMark = false → ∀ o ∈ (nntpDoretrieve out options fuel filec midinfo w).outcomes, o.Sound := by
  intro h
  have hrun : ∃ o ∈ (nntpDoretrieve emptyOutside { gflags := getfilesGetincomplete } 2 sampleQueue {} ()).outcomes,
      o.recorded = true ∧ o.obtained = [] := by
    refine ⟨_, List.mem_cons_self, ?_⟩
    decide
  obtain ⟨o, ho, hrec, hnil⟩ := hrun
  exact (h emptyOutside { gflags := getfilesGetincomplete } 2 sampleQueue {} () rfl rfl rfl o ho hrec).1 hnil

end Nget
