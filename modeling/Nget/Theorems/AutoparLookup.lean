import Nget.Theorems.Getfiles

/-! Where a retrieval asks the par handler for a path that it does not know. The handler knows the paths of the autopar
    requests that the walk over the cache asks about a file; the retrieval asks, by the options as they are at its end,
    for the path of every file that is queued. Where it may come to ask for an unknown one it does with nothing on disk
    and no article to be had. -/

namespace Nget

section
variable {W : Type} {par : ParOutside W} {time : W → Int64}

/-! ### What the walk leaves -/

/-- After the walk, the handler knows the paths that it was consulted for, and the queue has what was queued. -/
structure WalkSpec (par : ParOutside W) (steps : List (Asked W)) (st st' : Getfiles W) : Prop where
  known : ∀ path, st'.handler.At path ↔ (∃ s ∈ steps, s.consults par = true ∧ s.info.path = path) ∨ st.handler.At path
  queue : ∀ fr, fr ∈ st'.fc.files ↔ (∃ s ∈ steps, s.queues par ∧ s.retr = fr) ∨ fr ∈ st.fc.files

theorem WalkSpec.refl {st : Getfiles W} : WalkSpec par [] st st := ⟨by simp, by simp⟩

theorem WalkSpec.trans {steps steps' : List (Asked W)} {st st' st'' : Getfiles W} (h : WalkSpec par steps st st')
    (h' : WalkSpec par steps' st' st'') : WalkSpec par (steps ++ steps') st st'' := by
  constructor
  · intro path
    rw [h'.known, h.known]
    simp only [List.mem_append, or_and_right, exists_or]
    rw [or_comm, or_assoc, or_comm (b := ∃ s ∈ steps', _), ← or_assoc, or_right_comm]
  · intro fr
    rw [h'.queue, h.queue]
    simp only [List.mem_append, or_and_right, exists_or]
    rw [or_comm, or_assoc, or_comm (b := ∃ s ∈ steps', _), ← or_assoc, or_right_comm]

theorem getfileStep_walk {info : NntpGetinfo} {f : NntpFile} {st : Getfiles W}
    (hgoes : ∀ stop, (getfileStep par time info f st).1 ≠ .stopped stop) :
    WalkSpec par [⟨info, f, st⟩] st (getfileStep par time info f st).2 := by
  have hspec := @getfileStep_spec W par time ⟨info, f, st⟩
  constructor
  · intro path
    rw [hspec.known hgoes path]
    simp only [List.mem_singleton, exists_eq_left]
    exact or_congr_left (and_congr_right fun _ => eq_comm)
  · intro fr
    simp only [List.mem_singleton, exists_eq_left]
    rcases hspec.queue with ⟨hq, -, hfc⟩ | ⟨hq, hfc⟩
    · rw [hfc]
      simp only [hq, true_and]
      exact SortedList.mem_insertUpper.trans (or_congr_left eq_comm)
    · rw [hfc]
      simp only [hq, false_and, false_or]

theorem nntpCacheGetfile_walk {f : NntpFile} : ∀ (infos : List NntpGetinfo) (st : Getfiles W),
    (nntpCacheGetfile par time f infos st).1 = none →
      WalkSpec par (fileSteps par time f infos st) st (nntpCacheGetfile par time f infos st).2
  | [], _, _ => WalkSpec.refl
  | info :: infos, st, h => by
    have hstep := @getfileStep_walk W par time info f st
    unfold nntpCacheGetfile at h ⊢
    unfold fileSteps
    generalize getfileStep par time info f st = r at h hstep ⊢
    obtain ⟨e, st'⟩ := r
    cases e with
    | next => exact (hstep fun _ hstop => by cases hstop).trans (nntpCacheGetfile_walk infos st' h)
    | done => exact hstep fun _ hstop => by cases hstop
    | stopped stop => cases h

theorem getfiles_walk {infos : List NntpGetinfo} : ∀ (fs : List NntpFile) (st : Getfiles W),
    (getfiles par time infos fs st).1 = none →
      WalkSpec par (walkSteps par time infos fs st).flatten st (getfiles par time infos fs st).2
  | [], _, _ => WalkSpec.refl
  | f :: fs, st, h => by
    have hfile := @nntpCacheGetfile_walk W par time f infos st
    unfold getfiles at h ⊢
    unfold walkSteps
    generalize nntpCacheGetfile par time f infos st = r at h hfile ⊢
    obtain ⟨stop | stop, st'⟩ := r
    · exact (hfile rfl).trans (getfiles_walk fs st' h)
    · cases h

/-- Each path for which a request without autopar queues a file is the path of an autopar request that is asked for a
    file. -/
def PathsConsulted (par : ParOutside W) (steps : List (Asked W)) : Prop :=
  ∀ s ∈ steps, s.info.has getfilesAutoparDisablingFlags = true → s.queues par →
    ∃ s' ∈ steps, s'.consults par = true ∧ s'.info.path = s.info.path

theorem queue_known_iff {infos : List NntpGetinfo} {files : List NntpFile} {midinfo : MetaMidInfo} {w : W}
    (hwalk : (getfiles par time infos files { midinfo, world := w }).1 = none) :
    (∀ fr ∈ (getfiles par time infos files { midinfo, world := w }).2.fc.files,
        (getfiles par time infos files { midinfo, world := w }).2.handler.At fr.path) ↔
      PathsConsulted par (walkSteps par time infos files { midinfo, world := w }).flatten := by
  have hspec := getfiles_walk files { midinfo, world := w } hwalk
  have hknown : ∀ path, (getfiles par time infos files { midinfo, world := w }).2.handler.At path ↔
      ∃ s ∈ (walkSteps par time infos files { midinfo, world := w }).flatten, s.consults par = true ∧ s.info.path = path :=
    fun path => (hspec.known path).trans (or_iff_left nofun)
  constructor
  · intro h s hs _ hq
    have hfr : s.retr ∈ (getfiles par time infos files { midinfo, world := w }).2.fc.files :=
      (hspec.queue s.retr).mpr (Or.inl ⟨s, hs, hq, rfl⟩)
    exact (hknown s.info.path).mp (h s.retr hfr)
  · intro h fr hfr
    obtain ⟨s, hs, hq, rfl⟩ := ((hspec.queue fr).mp hfr).resolve_right nofun
    refine (hknown _).mpr ?_
    cases hdis : s.info.has getfilesAutoparDisablingFlags with
    | true => exact h s hs hdis hq
    -- An autopar request asks the handler before it queues the file.
    | false => exact ⟨s, hs, by simp [Asked.consults, hq.1.1, hdis], rfl⟩

/-! ### The retrieval -/

section
variable {out : Outside W} {options : NgetOptions}

/-- The retrieval does not ask the handler, or the handler knows the path of each file of the queue. -/
def Answered (options : NgetOptions) (filec : NntpFilesU) (pw : ParWorld W) : Prop :=
  options.has getfilesAutoparDisablingFlags = true ∨ ∀ fr ∈ filec.files, pw.handler.At fr.path

theorem CallMoves.answers {fc fc' : NntpFilesU} {pw : ParWorld W} {r : Except Text NntpFilesU × ParWorld W}
    {new : List NntpFileRetr} (h : CallMoves False par fc pw r new) (hok : r.1 = .ok fc')
    (hfc : ∀ fr ∈ fc.files, pw.handler.At fr.path) : ∀ fr ∈ fc'.files, r.2.handler.At fr.path := by
  intro fr hfr
  rw [h.queue fc' hok, (addfile_perm new).mem_iff, List.mem_append] at hfr
  rw [h.known]
  exact hfr.elim (h.paths fr) (hfc fr)

theorem eraseCurrent_asserted {fr : NntpFileRetr} {st : Retrieving (ParWorld W)} (hs : st.world.handler.Sound par)
    (hasserted : st.world.asserted ≠ some .parinfo)
    (hanswers : options.has getfilesAutoparDisablingFlags = true ∨ st.world.handler.At fr.path ∧
      ∀ fr ∈ st.filec.files, st.world.handler.At fr.path) :
    let r := eraseCurrent (out.withPar par) options fr st
    r.2.world.handler.Sound par ∧ r.2.world.asserted ≠ some .parinfo ∧
      (r.1 = none → Answered options r.2.filec r.2.world) := by
  have htail : ∀ fr' ∈ st.filec.files.tail, fr' ∈ st.filec.files := fun _ h => List.mem_of_mem_tail h
  unfold eraseCurrent
  dsimp only
  split
  · exact ⟨hs, hasserted, fun _ => hanswers.imp id fun h fr' hfr' => h.2 fr' (htail fr' hfr')⟩
  · next hcond =>
    have hdis : ¬options.has getfilesAutoparDisablingFlags = true := fun h => by simp [h] at hcond
    obtain ⟨hfr, hfiles⟩ := hanswers.resolve_left hdis
    rcases @withPar_maybeGetPxxs W par False out ⟨st.bytesleft, st.filec.files.tail⟩ st.world fr.path nofun hs with
      ⟨new, h⟩ | ⟨hnot, -⟩
    · have hknown := fun fc' hok => @CallMoves.answers W par ⟨st.bytesleft, st.filec.files.tail⟩ fc' st.world _ new h hok
        fun fr' hfr' => hfiles fr' (htail fr' hfr')
      have hsound := h.sound
      have hsame := h.asserted
      generalize (out.withPar par).maybeGetPxxs fr.path ⟨st.bytesleft, st.filec.files.tail⟩ st.world = r
        at hknown hsound hsame ⊢
      obtain ⟨e | filec, pw⟩ := r
      · exact ⟨hsound, fun h => hasserted (hsame.symm.trans h), nofun⟩
      · exact ⟨hsound, fun h => hasserted (hsame.symm.trans h), fun _ => Or.inr (hknown filec rfl)⟩
    · exact absurd hfr hnot

theorem retrieveLoop_asserted : ∀ (fuel : Nat) (st : Retrieving (ParWorld W)), st.world.handler.Sound par →
    st.world.asserted ≠ some .parinfo → Answered options st.filec st.world →
      (retrieveLoop (out.withPar par) options fuel st).state.world.asserted ≠ some .parinfo
  | 0, _, _, hasserted, _ => hasserted
  | fuel + 1, st, hs, hasserted, hanswers => by
    unfold retrieveLoop
    split
    · exact hasserted
    · next fr frs hfiles =>
      obtain ⟨hshows, hsub⟩ := @retrieveFile_shows _ _ _ _ options fr (@withPar_shows W par out) st
      generalize retrieveFile (out.withPar par) options fr st = r at hshows hsub ⊢
      obtain ⟨res, st1⟩ := r
      simp only [Prod.mk.injEq] at hshows
      obtain ⟨hhandler, -, hsame⟩ := hshows
      dsimp only at hhandler hsame hsub
      cases res with
      | error e => exact fun h => hasserted (hsame.symm.trans h)
      | ok outcome =>
        have hanswers1 : options.has getfilesAutoparDisablingFlags = true ∨ st1.world.handler.At fr.path ∧
            ∀ fr' ∈ st1.filec.files, st1.world.handler.At fr'.path := by
          rw [hhandler]
          refine hanswers.imp id fun h => ⟨h fr (by rw [hfiles]; exact List.mem_cons_self), fun fr' hfr' => ?_⟩
          exact h fr' (hsub.subset hfr')
        obtain ⟨hs2, hasserted2, hanswers2⟩ := @eraseCurrent_asserted W par out options fr st1 (hhandler ▸ hs)
          (hsame ▸ hasserted) hanswers1
        dsimp only
        generalize eraseCurrent (out.withPar par) options fr st1 = r2 at hs2 hasserted2 hanswers2 ⊢
        obtain ⟨stop | stop, st2⟩ := r2
        · exact retrieveLoop_asserted fuel st2 hs2 hasserted2 (hanswers2 rfl)
        · exact hasserted2

theorem has_of_and {flags flags' : UInt32} (hsub : flags' &&& flags = flags) (h : options.has flags = true) :
    options.has flags' = true := by
  unfold NgetOptions.has at h ⊢
  rw [decide_eq_true_eq] at h ⊢
  intro hzero
  refine h ?_
  calc options.gflags &&& flags
    _ = options.gflags &&& flags' &&& flags := by rw [UInt32.and_assoc, hsub]
    _ = 0 := by rw [hzero, UInt32.zero_and]

/-- A flag of those that disable autopar. -/
theorem has_disabling_of_nodecode : NgetOptions.has { options with gflags := options.gflags ||| getfilesNodecode }
    getfilesAutoparDisablingFlags = true :=
  has_of_and (by decide) (has_or_self (by decide))

/-- With a file for ngetlite to get, and with the options that disable autopar themselves, the loop does not ask. -/
theorem has_disabling_effective (h : options.has getfilesAutoparDisablingFlags = true ∨ options.writelite ≠ []) :
    options.effective.has getfilesAutoparDisablingFlags = true := by
  unfold NgetOptions.effective
  split
  · next hlite => exact h.resolve_right fun hne => hne (List.isEmpty_iff.mp hlite)
  · exact has_disabling_of_nodecode

/-- Where the loop asks, its options are those of the retrieval. -/
theorem effective_eq (h : options.effective.has getfilesAutoparDisablingFlags = false) :
    options.effective = options ∧ options.writelite = [] ∧ options.has getfilesAutoparDisablingFlags = false := by
  have hlite : options.writelite = [] := by
    by_contra hne
    rw [has_disabling_effective (Or.inr hne)] at h
    cases h
  have heq : options.effective = options := by
    unfold NgetOptions.effective
    rw [hlite]
    rfl
  exact ⟨heq, hlite, heq ▸ h⟩

theorem nntpDoretrieve_asserted {fuel : Nat} {filec : NntpFilesU} {midinfo : MetaMidInfo} {pw : ParWorld W}
    (hs : pw.handler.Sound par) (hasserted : pw.asserted ≠ some .parinfo) (hanswers : Answered options.effective filec pw) :
    (nntpDoretrieve (out.withPar par) options fuel filec midinfo pw).state.world.asserted ≠ some .parinfo := by
  obtain ⟨hs1, hasserted1, hanswers1⟩ : (parsBefore (out.withPar par) options filec pw).2.handler.Sound par ∧
      (parsBefore (out.withPar par) options filec pw).2.asserted ≠ some .parinfo ∧
      ∀ fc, (parsBefore (out.withPar par) options filec pw).1 = .ok fc →
        Answered options.effective fc (parsBefore (out.withPar par) options filec pw).2 := by
    unfold parsBefore
    split
    · next hdis => exact ⟨hs, hasserted, fun fc h => by cases h; exact hanswers⟩
    · next hdis =>
      obtain ⟨new, h⟩ := @withPar_getInitialPars W par False out filec pw nofun hs
      exact ⟨h.sound, fun h' => hasserted (h.asserted.symm.trans h'),
        fun fc hok => hanswers.imp id (h.answers hok)⟩
  rcases @nntpDoretrieve_cases _ (out.withPar par) options filec midinfo pw with ⟨e, -, hrun⟩ | ⟨fc, hfc, hrun⟩
  · rw [hrun]
    exact hasserted1
  · rcases hrun with ⟨midinfo', hrun⟩ | hrun
    · rw [hrun]
      exact hasserted1
    · rw [hrun]
      exact retrieveLoop_asserted fuel _ hs1 hasserted1 (hanswers1 fc hfc)

end

/-! ### An outside that gives nothing -/

/-- What the par handler asks of the disk and of the par libraries, which may change from the walk to the retrieval. -/
structure LookupDisk (W : Type) where
  readdir : Text → W → Except Text (List Text) × W
  parfileGetSethash : Text → W → Option Text × W
  par2fileGetSethash : Text → W → Option Text × W
  parfileOk : Text → W → Option UInt32 × W
  parfileCheck : Text → Text → W → Except Text Int × W
  par2Process : Text → List Text → W → Except Text Par2Repairer × W
  setAutoparErrorStatus : W → W
  setAutoparOkStatus : W → W

/-- The same expressions and options, over another disk. -/
def ParOutside.onDisk (par : ParOutside W) (disk : LookupDisk W) : ParOutside W :=
  { par with
    readdir := disk.readdir, parfileGetSethash := disk.parfileGetSethash, par2fileGetSethash := disk.par2fileGetSethash
    parfileOk := disk.parfileOk, parfileCheck := disk.parfileCheck, par2Process := disk.par2Process
    setAutoparErrorStatus := disk.setAutoparErrorStatus, setAutoparOkStatus := disk.setAutoparOkStatus }

/-- What a file of a set has to be is the same over any disk. -/
theorem ParHandler.Sound.onDisk {h : ParHandler} {disk : LookupDisk W} (hs : h.Sound par) : h.Sound (par.onDisk disk) :=
  fun e he => ⟨(hs e he).par1info, (hs e he).par2info, (hs e he).path1, (hs e he).path2⟩

/-- A disk with no files. -/
def emptyDisk : LookupDisk W where
  readdir _ w := (.ok [], w)
  parfileGetSethash _ w := (none, w)
  par2fileGetSethash _ w := (none, w)
  parfileOk _ w := (none, w)
  parfileCheck _ _ w := (.ok 0, w)
  par2Process _ _ w := (.ok {}, w)
  setAutoparErrorStatus w := w
  setAutoparOkStatus w := w

/-- No article is to be had. -/
def noArticles : Outside W where
  fexists _ _ := false
  time _ := 0
  doarticle _ _ w := (.ok (-1), w)
  dowriteliteArticle _ _ w := (.ok (), w)
  uulib _ _ w := (.ok ⟨0, false, []⟩, w)
  saveText _ w := (.ok (), w)
  unlink _ w := w
  dupeMatch _ _ := false
  getInitialPars filec w := (.ok filec, w)
  maybeGetPxxs _ filec w := (.ok filec, w)
  bytes _ := 0
  checksum _ := 0

theorem emptyDisk_one (f : NntpFile) : (par.onDisk emptyDisk).OneBasename f := by
  intro path w l w' hload key
  have hl : l = {} := by
    cases hload
    rfl
  subst hl
  exact Nat.zero_le 1

section
variable {ν : Type} {check : Text → List Text → W → Except Text (Int × ν) × W}
  {get : Int → ν → Text → ParXInfo → Int × List NntpFile × ParXInfo} {Accepts : NntpFile → Prop}

/-- With no local par files there is no set to be checked, so the call comes to its end. -/
theorem maybeGetPxxs_ok {addfrompath : Text → W → Except Text LocalParFiles × W}
    {maybeAddParfile : ParXInfo → NntpFile → Bool → Option ParXInfo} {st : ParCall ParXInfo W}
    (hload : addfrompath st.info.path st.world = (.ok {}, st.world))
    (htakes : ∀ info f info', maybeAddParfile info f true = some info' → Takes Accepts info f info')
    (hreadd : ∀ info f, Accepts f → ∃ info', maybeAddParfile info f true = some info')
    (hmatched : st.info.Matched Accepts) :
    ∃ total, (maybeGetPxxs par check get addfrompath maybeAddParfile st).1 = .ok total := by
  unfold maybeGetPxxs
  rw [hload]
  dsimp only
  obtain ⟨info, hadd, -, -, hlocal, -⟩ := readd_all htakes hreadd _ _
    (@mem_releaseUnclaimedPxxs Accepts { st.info with localpars := {} } hmatched) releaseUnclaimedPxxs_matched
  rw [hadd]
  dsimp only
  have hnone : (info.getInitialPars par).2.localpars.basefilenames.entries = [] := by
    show info.localpars.basefilenames.entries = []
    rw [hlocal]
    rfl
  rw [hnone]
  exact ⟨_, rfl⟩

end

theorem par1MaybeGetPxxs_ok {st : ParCall ParXInfo W} (h : st.info.Matched (Par1Accepts (par.onDisk emptyDisk))) :
    ∃ total, (par1MaybeGetPxxs (par.onDisk emptyDisk) st).1 = .ok total :=
  maybeGetPxxs_ok rfl (fun _ _ _ h => par1MaybeAddParfile_takes h) (fun _ _ h => par1MaybeAddParfile_readd h) h

theorem par2MaybeGetPxxs_ok {st : ParCall ParXInfo W} (h : st.info.Matched (Par2Accepts (par.onDisk emptyDisk))) :
    ∃ total, (par2MaybeGetPxxs (par.onDisk emptyDisk) st).1 = .ok total :=
  maybeGetPxxs_ok rfl (fun _ _ _ h => par2MaybeAddParfile_takes h) (fun _ _ h => par2MaybeAddParfile_readd h) h

theorem ParHandler.runParInfo_none {path : Text} {p : ParInfo} {st : ParCall ParHandler W}
    (hp : p.Sound (par.onDisk emptyDisk) path) : (ParHandler.runParInfo (par.onDisk emptyDisk) path p st).1 = none := by
  show (ParInfo.maybeGetPxxs (par.onDisk emptyDisk) ⟨p, st.added, st.world⟩).1 = none
  unfold ParInfo.maybeGetPxxs
  obtain ⟨total, h1⟩ := @par1MaybeGetPxxs_ok W par ⟨p.par1info, st.added, st.world⟩ hp.par1info
  generalize par1MaybeGetPxxs (par.onDisk emptyDisk) ⟨p.par1info, st.added, st.world⟩ = r1 at h1 ⊢
  obtain ⟨r1, st1⟩ := r1
  subst h1
  obtain ⟨total2, h2⟩ := @par2MaybeGetPxxs_ok W par ⟨p.par2info, st1.added, st1.world⟩ hp.par2info
  dsimp only
  generalize par2MaybeGetPxxs (par.onDisk emptyDisk) ⟨p.par2info, st1.added, st1.world⟩ = r2 at h2 ⊢
  obtain ⟨r2, st2⟩ := r2
  subst h2
  rfl

theorem ParHandler.getInitialParsLoop_none {pathsInFc : List Text} :
    ∀ (ps : List (Text × ParInfo)) (st : ParCall ParHandler W), (∀ e ∈ ps, e.2.Sound (par.onDisk emptyDisk) e.1) →
      (ParHandler.getInitialParsLoop (par.onDisk emptyDisk) pathsInFc ps st).1 = none
  | [], _, _ => rfl
  | (path, p) :: ps, st, hs => by
    rw [List.forall_mem_cons] at hs
    unfold ParHandler.getInitialParsLoop
    split
    · exact getInitialParsLoop_none ps _ hs.2
    · have hrun := @ParHandler.runParInfo_none W par path p st hs.1
      generalize ParHandler.runParInfo (par.onDisk emptyDisk) path p st = r at hrun ⊢
      obtain ⟨stop, st'⟩ := r
      subst hrun
      exact getInitialParsLoop_none ps st' hs.2

theorem ParWorld.call_ok {f : ParCall ParHandler W → Option ParStop × ParCall ParHandler W} {fc : NntpFilesU} {pw : ParWorld W}
    (h : (f ⟨pw.handler, [], pw.world⟩).1 = none) : ∃ fc', (pw.call par f fc).1 = .ok fc' := by
  unfold ParWorld.call
  generalize f ⟨pw.handler, [], pw.world⟩ = r at h ⊢
  obtain ⟨stop, st⟩ := r
  subst h
  exact ⟨_, rfl⟩

/-- The retrieval with nothing to be had. -/
abbrev nothingToGet (par : ParOutside W) : Outside (ParWorld W) := noArticles.withPar (par.onDisk emptyDisk)

section
variable {options : NgetOptions} {accepted : Multiset NntpFile}

theorem nothingToGet_getInitialPars {fc : NntpFilesU} {pw : ParWorld W} (hs : pw.handler.Sound (par.onDisk emptyDisk)) :
    ∃ fc', ((nothingToGet par).getInitialPars fc pw).1 = .ok fc' :=
  ParWorld.call_ok (ParHandler.getInitialParsLoop_none _ _ hs)

/-- Of a known path something is asked and given; the call for an unknown one fails. -/
theorem nothingToGet_maybeGetPxxs {path : Text} {fc : NntpFilesU} {pw : ParWorld W}
    (hs : pw.handler.Sound (par.onDisk emptyDisk)) (hat : pw.handler.At path) :
    ∃ fc', ((nothingToGet par).maybeGetPxxs path fc pw).1 = .ok fc' := by
  refine ParWorld.call_ok ?_
  unfold ParHandler.maybeGetPxxs
  obtain ⟨e, hfind⟩ := Option.isSome_iff_exists.mp hat
  rw [hfind]
  obtain ⟨hmem, rfl⟩ := SortedMap.find?_eq_some_iff.mp hfind
  exact ParHandler.runParInfo_none (hs e hmem)

/-- No part is got, so nothing is decoded and nothing is thrown. -/
theorem retrieveParts_nothing {fr : NntpFileRetr} (hlite : options.writelite = []) :
    ∀ (ps : List NntpPart) (st : PartsState (ParWorld W)), st.fnbuf = [] →
      (retrieveParts (nothingToGet par) options fr ps st).1 = none ∧
        (retrieveParts (nothingToGet par) options fr ps st).2.fnbuf = []
  | [], _, h => ⟨rfl, h⟩
  | p :: ps, st, h => by
    have hpart : (retrievePart (nothingToGet par) options fr p st).1 = none ∧
        (retrievePart (nothingToGet par) options fr p st).2.fnbuf = [] := by
      have harticle : ∀ fn, (if options.has getfilesNoconnect = true then ((.ok (-1), st.world) : Except Text Int32 × ParWorld W)
          else (nothingToGet par).doarticle p fn st.world) = (.ok (-1), st.world) := fun fn => ite_self _
      unfold retrievePart
      dsimp only
      split
      · exact ⟨rfl, h⟩
      · rw [if_neg (show ¬(nothingToGet par).fexists _ st.world = true from Bool.false_ne_true), hlite, harticle]
        dsimp only [List.isEmpty_nil, Bool.not_true]
        rw [if_neg (show ¬(!true) = true from Bool.false_ne_true), if_neg (by decide)]
        split
        · exact ⟨rfl, h⟩
        · exact ⟨rfl, h⟩
    unfold retrieveParts
    generalize retrievePart (nothingToGet par) options fr p st = r at hpart ⊢
    obtain ⟨e, st'⟩ := r
    obtain ⟨rfl, hfnbuf⟩ := hpart
    exact retrieveParts_nothing hlite ps st' hfnbuf

/-- The file is gone through, and no other file leaves the queue. -/
theorem retrieveFile_nothing {fr : NntpFileRetr} {st : Retrieving (ParWorld W)} (hlite : options.writelite = []) :
    ∃ outcome st', retrieveFile (nothingToGet par) options fr st = (.ok outcome, st') ∧ st'.filec = st.filec := by
  have hparts := @retrieveParts_nothing W par options fr hlite fr.file.parts { bytesleft := st.bytesleft, world := st.world } rfl
  unfold retrieveFile
  generalize retrieveParts (nothingToGet par) options fr fr.file.parts { bytesleft := st.bytesleft, world := st.world } = r
    at hparts ⊢
  obtain ⟨e, ps⟩ := r
  obtain ⟨rfl, hfnbuf⟩ := hparts
  dsimp only at hfnbuf ⊢
  split
  · exact ⟨_, _, rfl, rfl⟩
  · split
    · exact ⟨_, _, rfl, rfl⟩
    · rw [hfnbuf]
      exact ⟨_, _, rfl, rfl⟩

/-- The first file is erased. The handler is asked for a path that it does not know, or it answers, and then the files
    behind the first one are still queued. -/
theorem eraseCurrent_nothing {fr : NntpFileRetr} {st : Retrieving (ParWorld W)}
    (hdis : options.has getfilesAutoparDisablingFlags = false) (hs : st.world.handler.Sound (par.onDisk emptyDisk)) :
    let r := eraseCurrent (nothingToGet par) options fr st
    r.1 ≠ none ∧ r.2.world.asserted = some .parinfo ∨
      r.1 = none ∧ (st.world.handler.At fr.path ∨ ∃ fr' ∈ st.filec.files.tail, fr'.path = fr.path) ∧
        (∀ fr' ∈ st.filec.files.tail, fr' ∈ r.2.filec.files) ∧
          ∀ path, r.2.world.handler.At path ↔ st.world.handler.At path := by
  unfold eraseCurrent
  dsimp only
  rw [hdis, Bool.false_or]
  split
  · next hany =>
    obtain ⟨fr', hfr', heq⟩ := List.any_eq_true.mp hany
    exact Or.inr ⟨rfl, Or.inr ⟨fr', hfr', of_decide_eq_true heq⟩, fun _ h => h, fun _ => Iff.rfl⟩
  · rcases @withPar_maybeGetPxxs W (par.onDisk emptyDisk) False noArticles ⟨st.bytesleft, st.filec.files.tail⟩ st.world
      fr.path nofun hs with ⟨new, h⟩ | ⟨-, heq⟩
    · by_cases hat : st.world.handler.At fr.path
      · obtain ⟨fc', hok⟩ := @nothingToGet_maybeGetPxxs W par fr.path ⟨st.bytesleft, st.filec.files.tail⟩ st.world hs hat
        have hqueue := h.queue fc' hok
        have hknown := h.known
        generalize (nothingToGet par).maybeGetPxxs fr.path ⟨st.bytesleft, st.filec.files.tail⟩ st.world = r at hok hknown ⊢
        obtain ⟨r, pw⟩ := r
        subst hok
        refine Or.inr ⟨rfl, Or.inl hat, fun fr' hfr' => ?_, hknown⟩
        show fr' ∈ fc'.files
        rw [hqueue, (addfile_perm new).mem_iff]
        exact List.mem_append_right _ hfr'
      · -- An unknown path is no call that moves files.
        have hnone : st.world.handler.parinfos.find? fr.path = none := by
          unfold ParHandler.At at hat
          simpa using hat
        have heq : (nothingToGet par).maybeGetPxxs fr.path ⟨st.bytesleft, st.filec.files.tail⟩ st.world =
            (.error [], { st.world with handed := st.world.handed ++ [], asserted := some .parinfo }) := by
          show ParWorld.call _ (ParHandler.maybeGetPxxs _ fr.path) _ st.world = _
          unfold ParWorld.call ParHandler.maybeGetPxxs
          rw [hnone]
        rw [heq]
        exact Or.inl ⟨nofun, rfl⟩
    · rw [heq]
      exact Or.inl ⟨nofun, rfl⟩

/-- With a file queued for a path that is not known, the loop comes to ask for it. -/
theorem retrieveLoop_asks (hlite : options.writelite = []) (hdis : options.has getfilesAutoparDisablingFlags = false) :
    ∀ (fuel : Nat) (st : Retrieving (ParWorld W)), st.world.Keeps (par.onDisk emptyDisk) accepted →
      (∃ fr ∈ st.filec.files, ¬st.world.handler.At fr.path) → st.filec.files.length + st.world.left < fuel →
        (retrieveLoop (nothingToGet par) options fuel st).state.world.asserted = some .parinfo
  | 0, _, _, _, hfuel => absurd hfuel (Nat.not_lt_zero _)
  | fuel + 1, st, hk, ⟨fr, hfr, hunknown⟩, hfuel => by
    unfold retrieveLoop
    split
    · next hnil =>
      rw [hnil] at hfr
      cases hfr
    · next first rest hfiles =>
      obtain ⟨hshows, -⟩ := @retrieveFile_shows _ _ _ _ options first
        (@withPar_shows W (par.onDisk emptyDisk) noArticles) st
      obtain ⟨outcome, st1, hfile, hfilec⟩ := @retrieveFile_nothing W par options first st hlite
      rw [hfile] at hshows ⊢
      dsimp only at hshows ⊢
      obtain ⟨hk1, -, hleft⟩ := hk.of_shows hshows
      have hhandler : st1.world.handler = st.world.handler := congrArg Prod.fst hshows
      obtain ⟨hk2, -, hless⟩ := @eraseCurrent_keeps W (par.onDisk emptyDisk) noArticles options accepted first st1
        (fun f _ => emptyDisk_one f) hk1
      have herase := @eraseCurrent_nothing W par options first st1 hdis hk1.sound
      dsimp only at hk2 hless herase
      generalize eraseCurrent (nothingToGet par) options first st1 = r at hk2 hless herase ⊢
      obtain ⟨stop, st2⟩ := r
      rcases herase with ⟨hne, hasserted⟩ | ⟨rfl, hasks, htail, hknown⟩
      · obtain ⟨e, rfl⟩ := Option.ne_none_iff_exists'.mp hne
        exact hasserted
      · have hless := hless rfl
        rw [hfilec, hfiles, List.tail_cons] at hless htail hasks
        rw [hfiles, List.length_cons] at hfuel
        dsimp only at hless htail hknown ⊢
        -- Behind the first file one is left whose path is not known.
        obtain ⟨fr', hfr', hunknown'⟩ : ∃ fr' ∈ rest, ¬st.world.handler.At fr'.path := by
          rcases List.mem_cons.mp (hfiles ▸ hfr) with rfl | hrest
          · obtain ⟨fr', hfr', heq⟩ := hasks.resolve_left fun hat => hunknown (hhandler ▸ hat)
            exact ⟨fr', hfr', heq ▸ hunknown⟩
          · exact ⟨fr, hrest, hunknown⟩
        refine retrieveLoop_asks hlite hdis fuel st2 hk2 ⟨fr', htail fr' hfr', ?_⟩ (by omega)
        rwa [hknown, hhandler]

/-- With autopar a queue that is not empty is retrieved. -/
theorem nntpDoretrieve_loop {V : Type} {out : Outside V} {filec fc : NntpFilesU} {midinfo : MetaMidInfo} {w : V} {fuel : Nat}
    (hlite : options.writelite = []) (hdis : options.has getfilesAutoparDisablingFlags = false)
    (hfc : (parsBefore out options filec w).1 = .ok fc) (hne : fc.files ≠ []) :
    nntpDoretrieve out options fuel filec midinfo w =
      retrieveLoop out options fuel (Retrieving.initial fc midinfo (parsBefore out options filec w).2) := by
  have hnot : ∀ flags, getfilesAutoparDisablingFlags &&& flags = flags → ¬options.has flags = true := fun flags hsub h => by
    rw [has_of_and hsub h] at hdis
    cases hdis
  unfold nntpDoretrieve
  generalize hr : parsBefore out options filec w = r at hfc ⊢
  unfold parsBefore at hr
  rw [hr]
  obtain ⟨r, w1⟩ := r
  subst hfc
  dsimp only
  rw [if_neg (by rwa [List.isEmpty_iff]), if_neg (hnot _ (by decide)), if_neg (hnot _ (by decide)),
    if_neg (hnot _ (by decide)), hlite]
  rfl

theorem nntpDoretrieve_asks {filec : NntpFilesU} {midinfo : MetaMidInfo} {pw : ParWorld W}
    (hdis : options.effective.has getfilesAutoparDisablingFlags = false) (hk : pw.Keeps (par.onDisk emptyDisk) accepted)
    (hunknown : ∃ fr ∈ filec.files, ¬pw.handler.At fr.path) :
    ∃ fuel, (nntpDoretrieve (nothingToGet par) options fuel filec midinfo pw).state.world.asserted = some .parinfo := by
  obtain ⟨-, hlite, hdis'⟩ := effective_eq hdis
  obtain ⟨fr, hfr, hunknown⟩ := hunknown
  obtain ⟨new, h⟩ := @withPar_getInitialPars W (par.onDisk emptyDisk) True noArticles filec pw
    (fun _ f _ => emptyDisk_one f) hk.sound
  obtain ⟨fc, hok⟩ := @nothingToGet_getInitialPars W par filec pw hk.sound
  have hparsBefore : parsBefore (nothingToGet par) options filec pw = (nothingToGet par).getInitialPars filec pw :=
    if_neg (by rw [hdis']; exact Bool.false_ne_true)
  have hk1 := (h.keeps hk).1
  have hfc : fr ∈ fc.files := by
    rw [h.queue fc hok, (addfile_perm new).mem_iff]
    exact List.mem_append_right _ hfr
  have hunknown1 : ¬((nothingToGet par).getInitialPars filec pw).2.handler.At fr.path := by rwa [h.known]
  refine ⟨fc.files.length + ((nothingToGet par).getInitialPars filec pw).2.left + 1, ?_⟩
  rw [nntpDoretrieve_loop hlite hdis' (hparsBefore ▸ hok) (List.ne_nil_of_mem hfc), hparsBefore]
  exact retrieveLoop_asks hlite hdis' _ _ hk1 ⟨fr, hfc, hunknown1⟩ (Nat.lt_succ_self _)

end

/-- After a walk that nothing stopped, every path of the queue is known to the handler exactly if each path for which a
    request without autopar queues a file is consulted by one with autopar. There, and where the options that the loop of
    the retrieval goes by switch autopar off, and nowhere else, the assertion of `parinfo(path)` fails in no retrieval:
    whatever is on disk, and whatever is downloaded. -/
theorem autopar_lookup_iff (par : ParOutside W) (time : W → Int64) (infos : List NntpGetinfo) (files : List NntpFile)
    (midinfo : MetaMidInfo) (w : W) (options : NgetOptions)
    (hwalk : (getfiles par time infos files { midinfo, world := w }).1 = none) :
    let st := (getfiles par time infos files { midinfo, world := w }).2
    let steps := (walkSteps par time infos files { midinfo, world := w }).flatten
    ((∀ fr ∈ st.fc.files, st.handler.At fr.path) ↔ PathsConsulted par steps) ∧
      ((∀ (disk : LookupDisk W) (out : Outside W) (fuel : Nat) (w' : W),
        (nntpDoretrieve (out.withPar (par.onDisk disk)) options fuel st.fc st.midinfo
          { world := w', handler := st.handler }).state.world.asserted ≠ some .parinfo) ↔
      options.effective.has getfilesAutoparDisablingFlags = true ∨ PathsConsulted par steps) := by
  intro st steps
  have hiff := queue_known_iff hwalk
  have hs : st.handler.Sound par := getfiles_sound files _ fun e he => absurd he SortedMap.not_mem_empty
  refine ⟨hiff, fun hrun => ?_, fun h disk out fuel w' => ?_⟩
  · by_contra hnot
    obtain ⟨hdis, hpaths⟩ := not_or.mp hnot
    rw [Bool.not_eq_true] at hdis
    have hunknown : ∃ fr ∈ st.fc.files, ¬st.handler.At fr.path := by
      by_contra hall
      refine hpaths (hiff.mp fun fr hfr => ?_)
      by_contra hat
      exact hall ⟨fr, hfr, hat⟩
    have hk : ParWorld.Keeps (par.onDisk emptyDisk) st.handler.files { world := w, handler := st.handler } :=
      ⟨add_zero _, hs.onDisk, nofun, nofun⟩
    obtain ⟨fuel, hasserted⟩ := nntpDoretrieve_asks hdis hk hunknown
    exact hrun emptyDisk noArticles fuel w hasserted
  · exact nntpDoretrieve_asserted hs.onDisk nofun (h.imp id hiff.mpr)

end

/-! ### Autopar switched on after a request -/

/-- A request without autopar. -/
def sampleNoautopar : NntpGetinfo := { sampleRequest with flags := getfilesNoautopar }

/-- A request without autopar and then one with it, for a par file and a file that is none. -/
theorem autopar_lookup_sample :
    let st := (getfiles localPar (fun _ => 0) [sampleNoautopar, sampleRequest] sampleCache { midinfo := {}, world := () }).2
    let steps := (walkSteps localPar (fun _ => 0) [sampleNoautopar, sampleRequest] sampleCache
      { midinfo := {}, world := () }).flatten
    ((∀ fr ∈ st.fc.files, st.handler.At fr.path) ↔ PathsConsulted localPar steps) ∧
      ((∀ (disk : LookupDisk Unit) (out : Outside Unit) (fuel : Nat) (w' : Unit),
        (nntpDoretrieve (out.withPar (localPar.onDisk disk)) {} fuel st.fc st.midinfo
          { world := w', handler := st.handler }).state.world.asserted ≠ some .parinfo) ↔
      NgetOptions.has (NgetOptions.effective {}) getfilesAutoparDisablingFlags = true ∨ PathsConsulted localPar steps) :=
  autopar_lookup_iff localPar (fun _ => 0) [sampleNoautopar, sampleRequest] sampleCache {} () {} (by decide +kernel)

/-- With autopar switched on after a request that queued a file without it, the handler is asked for a path that it does
    not know. -/
theorem autopar_lookup_fails : ¬∀ (par : ParOutside Unit) (time : Unit → Int64) (infos : List NntpGetinfo)
    (files : List NntpFile) (midinfo : MetaMidInfo) (options : NgetOptions) (out : Outside Unit) (fuel : Nat),
    let g := getfiles par time infos files { midinfo, world := () }
    g.1 = none → (nntpDoretrieve (out.withPar par) options fuel g.2.fc g.2.midinfo
      { world := (), handler := g.2.handler }).state.world.asserted ≠ some .parinfo := by
  intro h
  exact h samplePar (fun _ => 0) [sampleNoautopar] [fileOf "a.dat" "4"] {} {} emptyOutside 2 (by decide +kernel)
    (by decide +kernel)

end Nget
