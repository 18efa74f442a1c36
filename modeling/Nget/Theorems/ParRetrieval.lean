import Nget.Theorems.ParFiles
import Nget.Theorems.Retrieved

/-! A retrieval with a par handler. Whatever the disk, the checks and the downloads do from round to round, a file that
    the handler accepted is in one of its lists or was handed to the queue once; and since a round takes a file off the
    queue and only puts in files off the handler's lists, the retrieval ends. -/

namespace Nget

section
variable {W : Type} {par : ParOutside W} {One : Prop}

/-! ### The par files of a path -/

/-- The files of the sets of a path are such that they can be added again, and what is known is of that path. -/
structure ParInfo.Sound (par : ParOutside W) (path : Text) (p : ParInfo) : Prop where
  par1info : p.par1info.Matched (Par1Accepts par)
  par2info : p.par2info.Matched (Par2Accepts par)
  path1 : p.par1info.path = path
  path2 : p.par2info.path = path

def ParInfo.At (p : ParInfo) (path : Text) : Prop := path = p.par1info.path ∨ path = p.par2info.path

theorem ParInfo.maybeAddParfile_files {path : Text} {p p' : ParInfo} {f : NntpFile} {wantIncomplete : Bool}
    (h : p.maybeAddParfile par f wantIncomplete = some p') :
    p'.files = {f} + p.files ∧ (p.Sound par path → p'.Sound par path) := by
  unfold ParInfo.maybeAddParfile at h
  split at h
  · next par1info h1 =>
    cases h
    have t := par1MaybeAddParfile_takes h1
    refine ⟨?_, fun hs => ⟨t.matched hs.par1info, hs.par2info, t.path.trans hs.path1, hs.path2⟩⟩
    simp only [ParInfo.files, t.files, add_assoc]
  · obtain ⟨par2info, h2, rfl⟩ := Option.map_eq_some_iff.mp h
    have t := par2MaybeAddParfile_takes h2
    refine ⟨?_, fun hs => ⟨hs.par1info, t.matched hs.par2info, hs.path1, t.path.trans hs.path2⟩⟩
    simp only [ParInfo.files, t.files]
    exact add_left_comm _ _ _

theorem ParInfo.getInitialPars_files {p : ParInfo} :
    filesOf (p.getInitialPars par).1 + (p.getInitialPars par).2.files = p.files ∧
      ∀ fr ∈ (p.getInitialPars par).1, p.At fr.path := by
  unfold ParInfo.getInitialPars
  constructor
  · have h1 := @Nget.getInitialPars_files W par p.par1info
    have h2 := @Nget.getInitialPars_files W par p.par2info
    simp only [ParInfo.files]
    rw [← h1, ← h2, filesOf_append, filesOf_map_retr, filesOf_map_retr]
    abel
  · intro fr hfr
    rcases List.mem_append.mp hfr with hfr | hfr
    · obtain ⟨f, -, rfl⟩ := List.mem_map.mp hfr
      exact Or.inl rfl
    · obtain ⟨f, -, rfl⟩ := List.mem_map.mp hfr
      exact Or.inr rfl

theorem ParInfo.getInitialPars_sound {path : Text} {p : ParInfo} (h : p.Sound par path) :
    (p.getInitialPars par).2.Sound par path :=
  ⟨getInitialPars_matched h.par1info, getInitialPars_matched h.par2info, h.path1, h.path2⟩

/-- The call for the par2 files in a call for a path, where the one for the par1 files lets it come to that. -/
def ParInfo.load (par : ParOutside W) (st : ParCall ParInfo W) : Option (ParCall ParXInfo W) :=
  match par1MaybeGetPxxs par ⟨st.info.par1info, st.added, st.world⟩ with
  | (.error _, _) => none
  | (.ok _, st1) => some ⟨st.info.par2info, st1.added, st1.world⟩

theorem ParInfo.load_info {st : ParCall ParInfo W} : ∀ load ∈ ParInfo.load par st, load.info = st.info.par2info := by
  intro load hload
  unfold ParInfo.load at hload
  split at hload <;> cases hload
  rfl

/-- `maybe_get_pxxs` of what is known of a path moves files to the queue, and stops only where something outside throws. -/
theorem ParInfo.maybeGetPxxs_sound {path : Text} {st : ParCall ParInfo W}
    (hone : One → ∀ load ∈ ParInfo.load par st, load.OneBasename par) (hs : st.info.Sound par path) :
    Moved One ParInfo.files ParInfo.At st (ParInfo.maybeGetPxxs par st).2 ∧
      (ParInfo.maybeGetPxxs par st).2.info.Sound par path ∧
      ∀ stop, (ParInfo.maybeGetPxxs par st).1 = some stop → ∃ e, stop = .thrown e := by
  unfold ParInfo.load at hone
  unfold ParInfo.maybeGetPxxs
  have h1 := @par1MaybeGetPxxs_sound W par One ⟨st.info.par1info, st.added, st.world⟩ hs.par1info
  generalize par1MaybeGetPxxs par ⟨st.info.par1info, st.added, st.world⟩ = r1 at h1 hone ⊢
  obtain ⟨⟨new1, hadded1, hfiles1, hnew1, hpaths1⟩, hmatched1, hthrows1⟩ := h1
  have hpath1 : r1.2.info.path = st.info.par1info.path := ((hpaths1 r1.2.info.path).mp rfl)
  have hmoved1 : Moved One ParInfo.files ParInfo.At st ⟨{ st.info with par1info := r1.2.info }, r1.2.added, r1.2.world⟩ := by
    refine ⟨new1, hadded1, fun h1 => ?_, fun fr hfr => Or.inl (hnew1 fr hfr), fun path => ?_⟩
    · simp only [ParInfo.files, ← hfiles1 h1, add_assoc]
    · simp only [ParInfo.At, hpath1]
  have hsound1 : ParInfo.Sound par path { st.info with par1info := r1.2.info } :=
    ⟨hmatched1, hs.par2info, hpath1.trans hs.path1, hs.path2⟩
  obtain ⟨stop | total, st1⟩ := r1
  · exact ⟨hmoved1, hsound1, fun _ h => by cases h; exact hthrows1 stop rfl⟩
  · dsimp only at hpath1 hmoved1 hsound1 ⊢
    have h2 := @par2MaybeGetPxxs_sound W par One ⟨st.info.par2info, st1.added, st1.world⟩
      (fun h1 => hone h1 _ rfl) hs.par2info
    generalize par2MaybeGetPxxs par ⟨st.info.par2info, st1.added, st1.world⟩ = r2 at h2 ⊢
    obtain ⟨⟨new2, hadded2, hfiles2, hnew2, hpaths2⟩, hmatched2, hthrows2⟩ := h2
    have hpath2 : r2.2.info.path = st.info.par2info.path := ((hpaths2 r2.2.info.path).mp rfl)
    have hmoved2 : Moved One ParInfo.files ParInfo.At st ⟨⟨st1.info, r2.2.info⟩, r2.2.added, r2.2.world⟩ := by
      refine hmoved1.trans ⟨new2, hadded2, fun h1 => ?_, fun fr hfr => Or.inr (hnew2 fr hfr), fun path => ?_⟩
      · simp only [ParInfo.files, ← hfiles2 h1]
        exact add_left_comm _ _ _
      · simp only [ParInfo.At, hpath2]
    have hsound2 : ParInfo.Sound par path ⟨st1.info, r2.2.info⟩ :=
      ⟨hmatched1, hmatched2, hsound1.path1, hpath2.trans hs.path2⟩
    obtain ⟨stop | total2, st2⟩ := r2
    · exact ⟨hmoved2, hsound2, fun _ h => by cases h; exact hthrows2 stop rfl⟩
    · exact ⟨hmoved2, hsound2, nofun⟩

/-! ### The handler -/

def ParHandler.Sound (par : ParOutside W) (h : ParHandler) : Prop := ∀ e ∈ h.parinfos, e.2.Sound par e.1

/-- Something is known of the path. -/
def ParHandler.At (h : ParHandler) (path : Text) : Prop := (h.parinfos.find? path).isSome

theorem ParHandler.setParinfo_files {h : ParHandler} {path : Text} {p : ParInfo} :
    (h.setParinfo path p).files + ((h.parinfos.find? path).map fun e => e.2.files).getD 0 = h.files + p.files :=
  SortedMap.sumValues_assign

theorem ParHandler.setParinfo_sound {h : ParHandler} {path : Text} {p : ParInfo} (hh : h.Sound par) (hp : p.Sound par path) :
    (h.setParinfo path p).Sound par := by
  intro e he
  rcases SortedMap.mem_assign.mp he with rfl | ⟨he, -⟩
  · exact hp
  · exact hh e he

theorem ParHandler.setParinfo_at {h : ParHandler} {path path' : Text} {p : ParInfo} :
    (h.setParinfo path p).At path' ↔ path' = path ∨ h.At path' := by
  unfold ParHandler.At ParHandler.setParinfo
  rw [SortedMap.find?_assign]
  split
  · next heq => simp [heq]
  · next hne => simp [hne]

theorem ParHandler.mem_files {h : ParHandler} {path : Text} {p : ParInfo} (hfind : h.parinfos.find? path = some (path, p))
    {f : NntpFile} (hf : f ∈ p.files) : f ∈ h.files := by
  have hset := @ParHandler.setParinfo_files h path ⟨⟨[], [], [], [], [], [], 0, ∅, {}⟩, ⟨[], [], [], [], [], [], 0, ∅, {}⟩⟩
  rw [hfind] at hset
  have hzero : ParInfo.files ⟨⟨[], [], [], [], [], [], 0, ∅, {}⟩, ⟨[], [], [], [], [], [], 0, ∅, {}⟩⟩ = 0 := rfl
  rw [hzero, add_zero] at hset
  exact hset ▸ Multiset.mem_add.mpr (Or.inr hf)

/-- What moves the files of a path's `ParInfo` moves the handler's. -/
theorem ParHandler.moved {st : ParCall ParHandler W} {path : Text} {p p' : ParInfo} {new : List NntpFileRetr} {w : W}
    (hfind : st.info.parinfos.find? path = some (path, p)) (hp : p.Sound par path)
    (hfiles : One → filesOf new + p'.files = p.files) (hnew : ∀ fr ∈ new, p.At fr.path) :
    Moved One ParHandler.files ParHandler.At st ⟨st.info.setParinfo path p', st.added ++ new, w⟩ := by
  have hat : st.info.At path := by simp [ParHandler.At, hfind]
  refine ⟨new, rfl, fun h1 => ?_, fun fr hfr => ?_, fun path' => ?_⟩
  · have hset := @ParHandler.setParinfo_files st.info path p'
    rw [hfind, Option.map_some, Option.getD_some] at hset
    have : filesOf new + (st.info.setParinfo path p').files + p.files = st.info.files + p.files := by
      rw [add_assoc, hset, ← hfiles h1]
      abel
    exact add_right_cancel this
  · rcases hnew fr hfr with heq | heq
    · rw [heq, hp.path1]
      exact hat
    · rw [heq, hp.path2]
      exact hat
  · rw [ParHandler.setParinfo_at]
    refine ⟨fun h => ?_, Or.inr⟩
    rcases h with rfl | h
    · exact hat
    · exact h

/-- A call on the handler that ends so: it moved files, and its assertions on the lists held. -/
structure HandlerSound (One : Prop) (par : ParOutside W) (st : ParCall ParHandler W)
    (r : Option ParStop × ParCall ParHandler W) : Prop where
  moved : Moved One ParHandler.files ParHandler.At st r.2
  sound : r.2.info.Sound par
  stop : ∀ stop, r.1 = some stop → ∃ e, stop = .thrown e

theorem ParHandler.runParInfo_sound {st : ParCall ParHandler W} {path : Text} {p : ParInfo}
    (hfind : st.info.parinfos.find? path = some (path, p))
    (hone : One → ∀ load ∈ ParInfo.load par ⟨p, st.added, st.world⟩, load.OneBasename par) (hs : st.info.Sound par) :
    HandlerSound One par st (ParHandler.runParInfo par path p st) ∧
      ∃ p', (ParHandler.runParInfo par path p st).2.info = st.info.setParinfo path p' := by
  unfold ParHandler.runParInfo
  have hp : p.Sound par path := hs (path, p) (SortedMap.find?_eq_some_iff.mp hfind).1
  have h := @ParInfo.maybeGetPxxs_sound W par One path ⟨p, st.added, st.world⟩ hone hp
  generalize ParInfo.maybeGetPxxs par ⟨p, st.added, st.world⟩ = r at h ⊢
  obtain ⟨⟨new, hadded, hfiles, hnew, -⟩, hs', hthrows⟩ := h
  obtain ⟨stop, st'⟩ := r
  dsimp only at hadded hfiles hs' hthrows ⊢
  rw [hadded]
  exact ⟨⟨ParHandler.moved hfind hp hfiles hnew, ParHandler.setParinfo_sound hs hs', hthrows⟩, _, rfl⟩

/-- The calls for par2 files in the loop of `get_initial_pars`. -/
def ParHandler.loopLoads (par : ParOutside W) (pathsInFc : List Text) :
    List (Text × ParInfo) → ParCall ParHandler W → List (ParCall ParXInfo W)
  | [], _ => []
  | (path, p) :: ps, st =>
    if path ∈ pathsInFc then
      loopLoads par pathsInFc ps { st with
        info := st.info.setParinfo path (p.getInitialPars par).2
        added := st.added ++ (p.getInitialPars par).1 }
    else
      (ParInfo.load par ⟨p, st.added, st.world⟩).toList ++
        match ParHandler.runParInfo par path p st with
        | (some _, _) => []
        | (none, st) => loopLoads par pathsInFc ps st

theorem ParHandler.loopLoads_info {pathsInFc : List Text} : ∀ (ps : List (Text × ParInfo)) (st : ParCall ParHandler W),
    ∀ load ∈ ParHandler.loopLoads par pathsInFc ps st, ∃ e ∈ ps, load.info = e.2.par2info
  | [], _, _, h => by cases h
  | (path, p) :: ps, st, load, h => by
    have hlater : ∀ st', load ∈ ParHandler.loopLoads par pathsInFc ps st' →
        ∃ e ∈ (path, p) :: ps, load.info = e.2.par2info := fun st' h => by
      obtain ⟨e, he, hinfo⟩ := ParHandler.loopLoads_info ps st' load h
      exact ⟨e, List.mem_cons_of_mem _ he, hinfo⟩
    unfold ParHandler.loopLoads at h
    split at h
    · exact hlater _ h
    · rcases List.mem_append.mp h with h | h
      · exact ⟨_, List.mem_cons_self, ParInfo.load_info load (Option.mem_toList.mp h)⟩
      · split at h
        · cases h
        · exact hlater _ h

theorem ParHandler.getInitialParsLoop_sound {pathsInFc : List Text} :
    ∀ (ps : List (Text × ParInfo)) (st : ParCall ParHandler W),
    (ps.Pairwise fun a b => a.1 < b.1) → (∀ e ∈ ps, st.info.parinfos.find? e.1 = some e) →
    (One → ∀ load ∈ ParHandler.loopLoads par pathsInFc ps st, load.OneBasename par) → st.info.Sound par →
    HandlerSound One par st (ParHandler.getInitialParsLoop par pathsInFc ps st)
  | [], st, _, _, _, hs => ⟨Moved.refl rfl rfl fun _ => Iff.rfl, hs, nofun⟩
  | (path, p) :: ps, st, hsorted, hfind, hone, hs => by
    obtain ⟨hhead, htail⟩ := List.pairwise_cons.mp hsorted
    rw [List.forall_mem_cons] at hfind
    -- The later paths are not the path that is changed.
    have hlater : ∀ p' : ParInfo, ∀ e ∈ ps, (st.info.setParinfo path p').parinfos.find? e.1 = some e := fun p' e he => by
      have h := hfind.2 e he
      unfold ParHandler.setParinfo
      rw [SortedMap.find?_assign, if_neg (hhead e he).ne', h]
    unfold ParHandler.loopLoads at hone
    unfold ParHandler.getInitialParsLoop
    split
    · next hpath =>
      rw [if_pos hpath] at hone
      have hp : p.Sound par path := hs (path, p) (SortedMap.find?_eq_some_iff.mp hfind.1).1
      obtain ⟨hfiles, hnew⟩ := @ParInfo.getInitialPars_files W par p
      have hmoved := @ParHandler.moved W par One st path p _ _ st.world hfind.1 hp (fun _ => hfiles) hnew
      have h := @getInitialParsLoop_sound pathsInFc ps
        ⟨st.info.setParinfo path (p.getInitialPars par).2, st.added ++ (p.getInitialPars par).1, st.world⟩ htail
        (hlater _) hone (ParHandler.setParinfo_sound hs (ParInfo.getInitialPars_sound hp))
      exact ⟨hmoved.trans h.moved, h.sound, h.stop⟩
    · next hpath =>
      rw [if_neg hpath] at hone
      obtain ⟨hrun, p', hset⟩ := ParHandler.runParInfo_sound hfind.1
        (fun h1 load hload => hone h1 load (List.mem_append_left _ (Option.mem_toList.mpr hload))) hs
      generalize ParHandler.runParInfo par path p st = r at hrun hset hone ⊢
      obtain ⟨stop | stop, st'⟩ := r
      · dsimp only at hset hone ⊢
        have h := @getInitialParsLoop_sound pathsInFc ps st' htail (hset ▸ hlater p')
          (fun h1 load hload => hone h1 load (List.mem_append_right _ hload)) hrun.sound
        exact ⟨hrun.moved.trans h.moved, h.sound, h.stop⟩
      · exact hrun

/-- The calls for par2 files in `get_initial_pars`. -/
def ParHandler.initialLoads (par : ParOutside W) (fc : NntpFilesU) (st : ParCall ParHandler W) : List (ParCall ParXInfo W) :=
  ParHandler.loopLoads par (fc.files.map (·.path)) st.info.parinfos.entries st

theorem ParHandler.getInitialPars_sound {fc : NntpFilesU} {st : ParCall ParHandler W}
    (hone : One → ∀ load ∈ ParHandler.initialLoads par fc st, load.OneBasename par) (hs : st.info.Sound par) :
    HandlerSound One par st (ParHandler.getInitialPars par fc st) :=
  ParHandler.getInitialParsLoop_sound _ st st.info.parinfos.sorted
    (fun _ he => SortedMap.find?_eq_some_iff.mpr ⟨he, rfl⟩) hone hs

/-- The call for par2 files in `maybe_get_pxxs` for a path. -/
def ParHandler.callLoad (par : ParOutside W) (path : Text) (st : ParCall ParHandler W) : Option (ParCall ParXInfo W) :=
  (st.info.parinfos.find? path).bind fun e => ParInfo.load par ⟨e.2, st.added, st.world⟩

/-- A call for a path moves files as `HandlerSound` says, or nothing is known of the path. -/
theorem ParHandler.maybeGetPxxs_sound {path : Text} {st : ParCall ParHandler W}
    (hone : One → ∀ load ∈ ParHandler.callLoad par path st, load.OneBasename par) (hs : st.info.Sound par) :
    HandlerSound One par st (ParHandler.maybeGetPxxs par path st) ∨
      ¬st.info.At path ∧ ParHandler.maybeGetPxxs par path st = (some .parinfo, st) := by
  unfold ParHandler.callLoad at hone
  unfold ParHandler.maybeGetPxxs ParHandler.At
  split
  · next hnone => exact Or.inr ⟨by simp [hnone], rfl⟩
  · next hfind =>
    rw [hfind] at hone
    obtain ⟨-, rfl⟩ := SortedMap.find?_eq_some_iff.mp hfind
    exact Or.inl (ParHandler.runParInfo_sound hfind hone hs).1

/-! ### Files that match one basename wherever they are -/

section
variable {st : ParCall ParHandler W}

theorem ParHandler.load_one {e : Text × ParInfo} {load : ParCall ParXInfo W} (he : e ∈ st.info.parinfos)
    (hinfo : load.info = e.2.par2info) (hone : ∀ f ∈ st.info.files, par.OneBasename f) : load.OneBasename par := by
  intro l w' hl f hf
  have hfind : st.info.parinfos.find? e.1 = some (e.1, e.2) := SortedMap.find?_eq_some_iff.mpr ⟨he, rfl⟩
  rw [hinfo] at hf
  exact hone f (ParHandler.mem_files hfind (Multiset.mem_add.mpr (Or.inr hf))) _ _ l w' hl

theorem ParHandler.initialLoads_one {fc : NntpFilesU} (hone : ∀ f ∈ st.info.files, par.OneBasename f) :
    ∀ load ∈ ParHandler.initialLoads par fc st, load.OneBasename par := by
  intro load hload
  obtain ⟨e, he, hinfo⟩ := ParHandler.loopLoads_info _ _ load hload
  exact ParHandler.load_one he hinfo hone

theorem ParHandler.callLoad_one {path : Text} (hone : ∀ f ∈ st.info.files, par.OneBasename f) :
    ∀ load ∈ ParHandler.callLoad par path st, load.OneBasename par := by
  intro load hload
  obtain ⟨e, hfind, hload⟩ := Option.bind_eq_some_iff.mp hload
  exact ParHandler.load_one (SortedMap.find?_eq_some_iff.mp hfind).1 (ParInfo.load_info load hload) hone

end

/-! ### What the handler is given -/

/-- A file that the handler is given. -/
structure ParRequest where
  file : NntpFile
  path : Text
  temppath : Text
  wantIncomplete : Bool

/-- The handler given files one after the other: the files that it accepts, and the handler after them. A file at which
    something outside throws is not accepted. -/
def ParHandler.given (par : ParOutside W) : List ParRequest → ParCall ParHandler W → List NntpFile × ParCall ParHandler W
  | [], st => ([], st)
  | r :: rs, st =>
    match ParHandler.maybeAddParfile par r.file r.path r.temppath r.wantIncomplete st with
    | (.ok true, st) => (r.file :: (given par rs st).1, (given par rs st).2)
    | (_, st) => given par rs st

theorem ParHandler.parinfo_files {h : ParHandler} {path temppath : Text} {w w' : W} {p : ParInfo}
    (hp : h.parinfo par path temppath w = (.ok p, w')) :
    ((h.parinfos.find? path).map fun e => e.2.files).getD 0 = p.files ∧ (h.Sound par → p.Sound par path) := by
  unfold ParHandler.parinfo at hp
  split at hp
  · next e hfind =>
    cases hp
    rw [hfind]
    obtain ⟨hmem, rfl⟩ := SortedMap.find?_eq_some_iff.mp hfind
    exact ⟨rfl, fun hh => hh e hmem⟩
  · next hfind =>
    rw [hfind]
    unfold ParHandler.newParInfo at hp
    split at hp
    · cases hp
    · split at hp <;> cases hp
      exact ⟨rfl, fun _ => ⟨nofun, nofun, rfl, rfl⟩⟩

/-- A file is accepted and is in the handler, or the handler has the files that it had. -/
theorem ParHandler.maybeAddParfile_files {f : NntpFile} {path temppath : Text} {wantIncomplete : Bool}
    {st st' : ParCall ParHandler W} {r : Except ParStop Bool}
    (h : ParHandler.maybeAddParfile par f path temppath wantIncomplete st = (r, st')) :
    (r = .ok true ∧ st'.info.files = {f} + st.info.files ∨ r ≠ .ok true ∧ st'.info.files = st.info.files) ∧
      (st.info.Sound par → st'.info.Sound par) := by
  unfold ParHandler.maybeAddParfile at h
  split at h
  · cases h
    exact ⟨Or.inr ⟨nofun, rfl⟩, id⟩
  · next p w hp =>
    obtain ⟨hfiles, hsound⟩ := ParHandler.parinfo_files hp
    have hset := fun p' => @ParHandler.setParinfo_files st.info path p'
    rw [hfiles] at hset
    split at h
    · next p' hadd =>
      cases h
      obtain ⟨hadded, hsound'⟩ := ParInfo.maybeAddParfile_files hadd
      refine ⟨Or.inl ⟨rfl, ?_⟩, fun hs => ParHandler.setParinfo_sound hs (hsound' (hsound hs))⟩
      have h := hset p'
      rw [hadded, ← add_assoc, add_right_cancel_iff] at h
      exact h.trans (add_comm _ _)
    · cases h
      exact ⟨Or.inr ⟨nofun, add_right_cancel (hset p)⟩, fun hs => ParHandler.setParinfo_sound hs (hsound hs)⟩

/-- Once the handler is asked for a path, something is known of it. -/
theorem ParHandler.maybeAddParfile_at {f : NntpFile} {path temppath path' : Text} {wantIncomplete b : Bool}
    {st st' : ParCall ParHandler W}
    (h : ParHandler.maybeAddParfile par f path temppath wantIncomplete st = (.ok b, st')) :
    st'.info.At path' ↔ path' = path ∨ st.info.At path' := by
  unfold ParHandler.maybeAddParfile at h
  split at h
  · cases h
  · split at h <;> cases h
    · exact ParHandler.setParinfo_at
    · exact ParHandler.setParinfo_at

/-- The handler has the files that it accepted and those that it had before. -/
theorem ParHandler.given_files : ∀ (rs : List ParRequest) (st : ParCall ParHandler W), st.info.Sound par →
    (given par rs st).2.info.files = ↑(given par rs st).1 + st.info.files ∧ (given par rs st).2.info.Sound par ∧
      ∀ f ∈ (given par rs st).1, ∃ r ∈ rs, r.file = f
  | [], st, hs => ⟨(zero_add _).symm, hs, nofun⟩
  | r :: rs, st, hs => by
    unfold given
    have h := @ParHandler.maybeAddParfile_files W par r.file r.path r.temppath r.wantIncomplete st
    generalize ParHandler.maybeAddParfile par r.file r.path r.temppath r.wantIncomplete st = res at h ⊢
    obtain ⟨res, st'⟩ := res
    obtain ⟨hfiles, hsound⟩ := h rfl
    obtain ⟨hgiven, hs', hmem⟩ := given_files rs st' (hsound hs)
    have hmem' : ∀ f ∈ (given par rs st').1, ∃ r' ∈ r :: rs, r'.file = f := fun f hf => by
      obtain ⟨r', hr', hfile⟩ := hmem f hf
      exact ⟨r', List.mem_cons_of_mem _ hr', hfile⟩
    rcases hfiles with ⟨rfl, hfiles⟩ | ⟨hne, hfiles⟩
    · refine ⟨?_, hs', List.forall_mem_cons.mpr ⟨⟨r, List.mem_cons_self, rfl⟩, hmem'⟩⟩
      dsimp only
      rw [hgiven, hfiles, ← Multiset.cons_coe, ← Multiset.singleton_add]
      abel
    · have hskip : (match ((res, st') : Except ParStop Bool × ParCall ParHandler W) with
          | (.ok true, st) => (r.file :: (given par rs st).1, (given par rs st).2)
          | (_, st) => given par rs st) = given par rs st' := by
        split
        · next heq =>
          cases heq
          exact absurd rfl hne
        · next heq =>
          cases heq
          rfl
      rw [hskip]
      exact ⟨hgiven.trans (by rw [hfiles]), hs', hmem'⟩

/-! ### The run -/

/-- What a call on the handler in a retrieval does: it hands files to the queue, each for a path that is known, and
    where `One` holds, those files come off the handler's lists and no other file leaves them. -/
structure CallMoves (One : Prop) (par : ParOutside W) (fc : NntpFilesU) (pw : ParWorld W)
    (r : Except Text NntpFilesU × ParWorld W) (new : List NntpFileRetr) : Prop where
  handed : r.2.handed = pw.handed ++ new
  files : One → filesOf new + r.2.handler.files = pw.handler.files
  paths : ∀ fr ∈ new, pw.handler.At fr.path
  known : ∀ path, r.2.handler.At path ↔ pw.handler.At path
  sound : r.2.handler.Sound par
  asserted : r.2.asserted = pw.asserted
  queue : ∀ fc', r.1 = .ok fc' → fc' = new.foldl (NntpFilesU.addfile par) fc

theorem ParWorld.call_moves {f : ParCall ParHandler W → Option ParStop × ParCall ParHandler W} {fc : NntpFilesU}
    {pw : ParWorld W} (h : HandlerSound One par ⟨pw.handler, [], pw.world⟩ (f ⟨pw.handler, [], pw.world⟩)) :
    ∃ new, CallMoves One par fc pw (pw.call par f fc) new := by
  unfold ParWorld.call
  generalize f ⟨pw.handler, [], pw.world⟩ = r at h ⊢
  obtain ⟨⟨new, hadded, hfiles, hnew, hpaths⟩, hs, hstop⟩ := h
  obtain ⟨stop, st⟩ := r
  dsimp only at hadded hfiles hs hstop ⊢
  rw [List.nil_append] at hadded
  subst hadded
  refine ⟨st.added, ?_⟩
  split
  · exact ⟨rfl, hfiles, hnew, hpaths, hs, rfl, fun fc' h => by cases h; rfl⟩
  · exact ⟨rfl, hfiles, hnew, hpaths, hs, rfl, nofun⟩
  · next stop hnot =>
    obtain ⟨e, rfl⟩ := hstop stop rfl
    exact absurd rfl (hnot e)

section
variable {out : Outside W} {fc : NntpFilesU} {pw : ParWorld W}

theorem withPar_getInitialPars (hone : One → ∀ f ∈ pw.handler.files, par.OneBasename f) (hs : pw.handler.Sound par) :
    ∃ new, CallMoves One par fc pw ((out.withPar par).getInitialPars fc pw) new :=
  ParWorld.call_moves (ParHandler.getInitialPars_sound (fun h1 => ParHandler.initialLoads_one (hone h1)) hs)

/-- Only for a path of which nothing is known the assertion of `parinfo(path)` fails. -/
theorem withPar_maybeGetPxxs {path : Text} (hone : One → ∀ f ∈ pw.handler.files, par.OneBasename f)
    (hs : pw.handler.Sound par) :
    (∃ new, CallMoves One par fc pw ((out.withPar par).maybeGetPxxs path fc pw) new) ∨
      ¬pw.handler.At path ∧ (out.withPar par).maybeGetPxxs path fc pw = (.error [], { pw with asserted := some .parinfo }) := by
  rcases @ParHandler.maybeGetPxxs_sound W par One path ⟨pw.handler, [], pw.world⟩
    (fun h1 => ParHandler.callLoad_one (hone h1)) hs with h | ⟨hat, heq⟩
  · exact Or.inl (ParWorld.call_moves h)
  · refine Or.inr ⟨hat, ?_⟩
    change ParWorld.call par (ParHandler.maybeGetPxxs par path) fc pw = _
    unfold ParWorld.call
    rw [heq]
    dsimp only
    rw [List.append_nil]

end

theorem addfile_perm {fc : NntpFilesU} : ∀ new : List NntpFileRetr,
    (new.foldl (NntpFilesU.addfile par) fc).files.Perm (new ++ fc.files) := by
  intro new
  induction new generalizing fc with
  | nil => exact List.Perm.refl _
  | cons fr new ih =>
    rw [List.foldl_cons]
    exact ih.trans ((SortedList.insertUpper_perm.append_left new).trans List.perm_middle)

/-- What holds of the handler of a retrieval at any time: every accepted file is in its lists or was handed to the queue,
    the files of its sets can be added again, and no assertion on the lists has failed. -/
structure ParWorld.Keeps (par : ParOutside W) (accepted : Multiset NntpFile) (pw : ParWorld W) : Prop where
  stock : pw.handler.files + filesOf pw.handed = accepted
  sound : pw.handler.Sound par
  asserted : pw.asserted ≠ some .readd ∧ pw.asserted ≠ some .subjmatches

/-- How many files the handler has. -/
def ParWorld.left (pw : ParWorld W) : Nat := Multiset.card pw.handler.files

theorem CallMoves.keeps {accepted : Multiset NntpFile} {fc : NntpFilesU} {pw : ParWorld W}
    {r : Except Text NntpFilesU × ParWorld W} {new : List NntpFileRetr} (h : CallMoves True par fc pw r new)
    (hk : pw.Keeps par accepted) :
    r.2.Keeps par accepted ∧ pw.handed <+: r.2.handed ∧
      ∀ fc', r.1 = .ok fc' → fc'.files.length + r.2.left = fc.files.length + pw.left := by
  refine ⟨⟨?_, h.sound, h.asserted ▸ hk.asserted⟩, h.handed ▸ List.prefix_append _ _, fun fc' hok => ?_⟩
  · rw [h.handed, filesOf_append, ← hk.stock, ← h.files trivial]
    abel
  · have hcard := congrArg Multiset.card (h.files trivial)
    have hlen : Multiset.card (filesOf new) = new.length := by simp [filesOf]
    rw [Multiset.card_add, hlen] at hcard
    rw [h.queue fc' hok, (addfile_perm new).length_eq, List.length_append]
    unfold ParWorld.left
    omega

/-- What `obs` shows of the outside world is changed by none of the calls that work on a file. -/
structure Outside.Shows {V β : Type} (out : Outside V) (obs : V → β) : Prop where
  doarticle : ∀ p fn w, obs (out.doarticle p fn w).2 = obs w
  dowriteliteArticle : ∀ p fn w, obs (out.dowriteliteArticle p fn w).2 = obs w
  uulib : ∀ fr fnbuf w, obs (out.uulib fr fnbuf w).2 = obs w
  saveText : ∀ fr w, obs (out.saveText fr w).2 = obs w
  unlink : ∀ fn w, obs (out.unlink fn w) = obs w

section
variable {V β : Type} {out : Outside V} {obs : V → β} {options : NgetOptions} {fr : NntpFileRetr}

theorem retrievePart_shows (h : out.Shows obs) {p : NntpPart} {st : PartsState V} :
    obs (retrievePart out options fr p st).2.world = obs st.world := by
  unfold retrievePart
  dsimp only
  split
  · rfl
  · split
    · rfl
    · split
      · have hlite := h.dowriteliteArticle p (tempName out.checksum options fr p) st.world
        split
        · next heq => rwa [heq] at hlite
        · next heq => rwa [heq] at hlite
      · have harticle : obs (if options.has getfilesNoconnect = true then ((.ok (-1), st.world) : Except Text Int32 × V) else
            out.doarticle p (tempName out.checksum options fr p) st.world).2 = obs st.world := by
          split
          · rfl
          · exact h.doarticle p _ st.world
        split
        · next heq => rwa [heq] at harticle
        · next heq =>
          rw [heq] at harticle
          split
          · exact harticle
          · split <;> exact harticle

theorem retrieveParts_shows (h : out.Shows obs) : ∀ (ps : List NntpPart) (st : PartsState V),
    obs (retrieveParts out options fr ps st).2.world = obs st.world
  | [], _ => rfl
  | p :: ps, st => by
    have hpart := @retrievePart_shows _ _ _ _ options fr h p st
    unfold retrieveParts
    split
    · next heq => rwa [heq] at hpart
    · next st' heq =>
      rw [heq] at hpart
      exact (retrieveParts_shows h ps st').trans hpart

theorem unlinkAll_shows (h : out.Shows obs) : ∀ (fnbuf : List (Int32 × Text)) (w : V),
    obs (fnbuf.foldl (fun w fn => out.unlink fn.2 w) w) = obs w
  | [], _ => rfl
  | fn :: fnbuf, w => (unlinkAll_shows h fnbuf (out.unlink fn.2 w)).trans (h.unlink fn.2 w)

theorem decode_shows (h : out.Shows obs) {fnbuf : List (Int32 × Text)} {w : V} :
    obs (decode out options fr fnbuf w).2 = obs w := by
  unfold decode
  split
  · rfl
  · have huulib := h.uulib fr fnbuf w
    split
    · next heq => rwa [heq] at huulib
    · next run w1 heq =>
      rw [heq] at huulib
      refine Eq.trans ?_ huulib
      dsimp only
      -- The count of errors and the count of items do not matter for the outside world.
      generalize (decide ((decodeItems options run.items run.loadErrs []).1 = 1) && run.lastNote && run.items.isEmpty &&
        decide (fr.file.req ≤ 0) && decide (fnbuf.length = 1)) = noData
      generalize (if noData = true then 0 else (decodeItems options run.items run.loadErrs []).1) = derr
      generalize (if noData = true then 1 else run.items.length) = un
      split
      · rfl
      · have hsave := h.saveText fr w1
        split
        · next heq => rwa [heq] at hsave
        · next w2 heq =>
          rw [heq] at hsave
          split
          · exact hsave
          · dsimp only
            split
            · exact hsave
            · exact (unlinkAll_shows h fnbuf w2).trans hsave

theorem removeDupes_sublist {flist : List (Text × UInt64)} {st : Retrieving V} :
    (removeDupes out fr flist st).filec.files.Sublist st.filec.files := by
  have h := (List.Sublist.refl (st.filec.files.take 1)).append (List.filter_sublist (p := fun dfr => !(dfr.dupecheck &&
    dfr.path = fr.path && checkhavefile out flist dfr.file.subject (fileBytes out dfr.file))) (l := st.filec.files.tail))
  rw [← List.drop_one, List.take_append_drop, List.drop_one] at h
  exact h

/-- The work on a file does not touch the par handler, and it puts nothing into the queue. -/
theorem retrieveFile_shows (h : out.Shows obs) {st : Retrieving V} :
    obs (retrieveFile out options fr st).2.world = obs st.world ∧
      (retrieveFile out options fr st).2.filec.files.Sublist st.filec.files := by
  unfold retrieveFile
  have hparts := @retrieveParts_shows _ _ _ _ options fr h fr.file.parts { bytesleft := st.bytesleft, world := st.world }
  split
  · next heq =>
    rw [heq] at hparts
    exact ⟨hparts, List.Sublist.refl _⟩
  · next ps heq =>
    rw [heq] at hparts
    dsimp only
    split
    · exact ⟨hparts, List.Sublist.refl _⟩
    · split
      · exact ⟨hparts, List.Sublist.refl _⟩
      · have hdec := @decode_shows _ _ _ _ options fr h ps.fnbuf ps.world
        split
        · next heq =>
          rw [heq] at hdec
          exact ⟨hdec.trans hparts, List.Sublist.refl _⟩
        · next derr flist w heq =>
          rw [heq] at hdec
          split
          · split
            · exact ⟨hdec.trans hparts, List.Sublist.refl _⟩
            · exact ⟨hdec.trans hparts, removeDupes_sublist⟩
          · exact ⟨hdec.trans hparts, List.Sublist.refl _⟩

end

theorem withPar_shows {out : Outside W} :
    (out.withPar par).Shows fun pw : ParWorld W => (pw.handler, pw.handed, pw.asserted) :=
  ⟨fun _ _ _ => rfl, fun _ _ _ => rfl, fun _ _ _ => rfl, fun _ _ => rfl, fun _ _ => rfl⟩

theorem ParWorld.Keeps.of_shows {accepted : Multiset NntpFile} {pw pw' : ParWorld W}
    (h : (pw'.handler, pw'.handed, pw'.asserted) = (pw.handler, pw.handed, pw.asserted)) (hk : pw.Keeps par accepted) :
    pw'.Keeps par accepted ∧ pw'.handed = pw.handed ∧ pw'.left = pw.left := by
  simp only [Prod.mk.injEq] at h
  obtain ⟨hhandler, hhanded, hasserted⟩ := h
  refine ⟨⟨?_, hhandler ▸ hk.sound, hasserted ▸ hk.asserted⟩, hhanded, by rw [ParWorld.left, hhandler, ParWorld.left]⟩
  rw [hhandler, hhanded]
  exact hk.stock

section
variable {out : Outside W} {options : NgetOptions} {accepted : Multiset NntpFile}

theorem ParWorld.Keeps.one {pw : ParWorld W} (hone : ∀ f ∈ accepted, par.OneBasename f) (hk : pw.Keeps par accepted) :
    ∀ f ∈ pw.handler.files, par.OneBasename f := fun f hf =>
  hone f (hk.stock ▸ Multiset.mem_add.mpr (Or.inl hf))

/-- When the first file is erased, the queue and the handler together have a file less. -/
theorem eraseCurrent_keeps {fr : NntpFileRetr} {st : Retrieving (ParWorld W)} (hone : ∀ f ∈ accepted, par.OneBasename f)
    (hk : st.world.Keeps par accepted) :
    let r := eraseCurrent (out.withPar par) options fr st
    r.2.world.Keeps par accepted ∧ st.world.handed <+: r.2.world.handed ∧
      (r.1 = none → r.2.filec.files.length + r.2.world.left = st.filec.files.tail.length + st.world.left) := by
  unfold eraseCurrent
  dsimp only
  split
  · exact ⟨hk, List.prefix_rfl, fun _ => rfl⟩
  · rcases @withPar_maybeGetPxxs W par True out ⟨st.bytesleft, st.filec.files.tail⟩ st.world fr.path
      (fun _ => hk.one hone) hk.sound with ⟨new, h⟩ | ⟨-, heq⟩
    · obtain ⟨hkeeps, hhanded, hless⟩ := h.keeps hk
      generalize (out.withPar par).maybeGetPxxs fr.path ⟨st.bytesleft, st.filec.files.tail⟩ st.world = r
        at hkeeps hhanded hless ⊢
      obtain ⟨e | filec, pw⟩ := r
      · exact ⟨hkeeps, hhanded, nofun⟩
      · exact ⟨hkeeps, hhanded, fun _ => hless filec rfl⟩
    · rw [heq]
      exact ⟨⟨hk.stock, hk.sound, nofun, nofun⟩, List.prefix_rfl, nofun⟩

/-- The loop keeps every accepted file, whatever happens outside, and ends: each of its rounds takes a file off what the
    queue and the handler have together. -/
theorem retrieveLoop_keeps (hone : ∀ f ∈ accepted, par.OneBasename f) : ∀ (fuel : Nat) (st : Retrieving (ParWorld W)),
    st.world.Keeps par accepted →
      let r := retrieveLoop (out.withPar par) options fuel st
      r.state.world.Keeps par accepted ∧ st.world.handed <+: r.state.world.handed ∧
        (st.filec.files.length + st.world.left < fuel → r.atEnd ≠ .going)
  | 0, st, hk => ⟨hk, List.prefix_rfl, fun h => absurd h (Nat.not_lt_zero _)⟩
  | fuel + 1, st, hk => by
    unfold retrieveLoop
    split
    · exact ⟨hk, List.prefix_rfl, fun _ h => by cases h⟩
    · next fr frs hfiles =>
      obtain ⟨hshows, hlen⟩ := @retrieveFile_shows _ _ _ _ options fr (@withPar_shows W par out) st
      split
      · next e st1 hfile =>
        rw [hfile] at hshows
        obtain ⟨hk1, hhanded, -⟩ := hk.of_shows hshows
        exact ⟨hk1, hhanded ▸ List.prefix_rfl, fun _ h => by cases h⟩
      · next outcome st1 hfile =>
        rw [hfile] at hshows hlen
        dsimp only at hshows hlen
        obtain ⟨hk1, hhanded, hleft⟩ := hk.of_shows hshows
        obtain ⟨hk2, hprefix, hless⟩ := @eraseCurrent_keeps W par out options accepted fr st1 hone hk1
        split
        · next e st2 herase =>
          rw [herase] at hk2 hprefix
          exact ⟨hk2, hhanded ▸ hprefix, fun _ h => by cases h⟩
        · next st2 herase =>
          rw [herase] at hk2 hprefix hless
          have hless := hless rfl
          obtain ⟨hk3, hprefix3, hends⟩ := retrieveLoop_keeps hone fuel st2 hk2
          refine ⟨hk3, (hhanded ▸ hprefix).trans hprefix3, fun hfuel => hends ?_⟩
          dsimp only at hless
          rw [List.length_tail] at hless
          have hlen := hlen.length_le
          rw [hfiles, List.length_cons] at hlen hfuel
          omega

/-- With more fuel a loop only goes on. -/
theorem retrieveLoop_handed (hone : ∀ f ∈ accepted, par.OneBasename f) : ∀ (fuel more : Nat) (st : Retrieving (ParWorld W)),
    st.world.Keeps par accepted → fuel ≤ more →
      (retrieveLoop (out.withPar par) options fuel st).state.world.handed <+:
        (retrieveLoop (out.withPar par) options more st).state.world.handed
  | 0, more, st, hk, _ => (retrieveLoop_keeps hone more st hk).2.1
  | fuel + 1, more + 1, st, hk, hle => by
    unfold retrieveLoop
    split
    · exact List.prefix_rfl
    · next fr frs hfiles =>
      obtain ⟨hshows, -⟩ := @retrieveFile_shows _ _ _ _ options fr (@withPar_shows W par out) st
      split
      · exact List.prefix_rfl
      · next outcome st1 hfile =>
        rw [hfile] at hshows
        obtain ⟨hk1, -, -⟩ := hk.of_shows hshows
        obtain ⟨hk2, -, -⟩ := @eraseCurrent_keeps W par out options accepted fr st1 hone hk1
        split
        · exact List.prefix_rfl
        · next st2 herase =>
          rw [herase] at hk2
          exact retrieveLoop_handed hone fuel more st2 hk2 (Nat.le_of_succ_le_succ hle)

/-! ### The retrieval -/

/-- What the loop over the queue starts from. -/
def Retrieving.initial {V : Type} (filec : NntpFilesU) (midinfo : MetaMidInfo) (world : V) : Retrieving V :=
  { filec, midinfo, bytesleft := filec.bytes, filestot := UInt64.ofNat filec.files.length, world }

/-- What the par handler does before the first file. -/
def parsBefore {V : Type} (out : Outside V) (options : NgetOptions) (filec : NntpFilesU) (w : V) : Except Text NntpFilesU × V :=
  if options.has getfilesAutoparDisablingFlags then (.ok filec, w) else out.getInitialPars filec w

/-- The options that the loop over the queue goes by: with `writelite` nothing is decoded. -/
def NgetOptions.effective (options : NgetOptions) : NgetOptions :=
  if options.writelite.isEmpty then options else { options with gflags := options.gflags ||| getfilesNodecode }

/-- A run stops before the loop or is the loop; where it does not get to the loop it changes `midinfo` at most. -/
theorem nntpDoretrieve_cases {V : Type} {out : Outside V} {options : NgetOptions} {filec : NntpFilesU} {midinfo : MetaMidInfo}
    {w : V} :
    (∃ e, (parsBefore out options filec w).1 = .error e ∧ ∀ fuel, nntpDoretrieve out options fuel filec midinfo w =
      ⟨[], .thrown e, Retrieving.initial filec midinfo (parsBefore out options filec w).2⟩) ∨
    ∃ fc, (parsBefore out options filec w).1 = .ok fc ∧
      ((∃ midinfo', ∀ fuel, nntpDoretrieve out options fuel filec midinfo w =
        ⟨[], .finished, { Retrieving.initial fc midinfo (parsBefore out options filec w).2 with midinfo := midinfo' }⟩) ∨
      ∀ fuel, nntpDoretrieve out options fuel filec midinfo w =
        retrieveLoop out options.effective fuel (Retrieving.initial fc midinfo (parsBefore out options filec w).2)) := by
  unfold nntpDoretrieve
  generalize hr : parsBefore out options filec w = r
  unfold parsBefore at hr
  rw [hr]
  obtain ⟨e | fc, w₁⟩ := r
  · exact Or.inl ⟨e, rfl, fun _ => rfl⟩
  · refine Or.inr ⟨fc, rfl, ?_⟩
    dsimp only
    split
    · exact Or.inl ⟨midinfo, fun _ => rfl⟩
    · split
      · split
        · exact Or.inl ⟨midinfo, fun _ => rfl⟩
        · exact Or.inl ⟨_, fun _ => rfl⟩
      · split
        · exact Or.inl ⟨midinfo, fun _ => rfl⟩
        · split
          · exact Or.inl ⟨_, fun _ => rfl⟩
          · refine Or.inr fun fuel => ?_
            unfold NgetOptions.effective
            cases options.writelite.isEmpty <;> rfl

/-- What a retrieval with so much fuel gives from a handler that has the accepted files. -/
structure RetrievalKeeps (par : ParOutside W) (accepted : Multiset NntpFile)
    (run : Nat → RetrieveRun (ParWorld W)) (enough : Nat) :
    Prop where
  keeps : ∀ fuel, (run fuel).state.world.Keeps par accepted
  handed : ∀ fuel more, fuel ≤ more → (run fuel).state.world.handed <+: (run more).state.world.handed
  ends : ∀ fuel, enough < fuel → (run fuel).atEnd ≠ .going

theorem nntpDoretrieve_keeps {filec : NntpFilesU} {midinfo : MetaMidInfo} {pw : ParWorld W}
    (hone : ∀ f ∈ accepted, par.OneBasename f) (hk : pw.Keeps par accepted) :
    RetrievalKeeps par accepted (fun fuel => nntpDoretrieve (out.withPar par) options fuel filec midinfo pw)
      (filec.files.length + pw.left) := by
  obtain ⟨hkr, hlen⟩ : (parsBefore (out.withPar par) options filec pw).2.Keeps par accepted ∧
      ∀ fc, (parsBefore (out.withPar par) options filec pw).1 = .ok fc →
        fc.files.length + (parsBefore (out.withPar par) options filec pw).2.left = filec.files.length + pw.left := by
    unfold parsBefore
    split
    · exact ⟨hk, fun fc h => by cases h; rfl⟩
    · obtain ⟨new, h⟩ := @withPar_getInitialPars W par True out filec pw (fun _ => hk.one hone) hk.sound
      exact ⟨(h.keeps hk).1, (h.keeps hk).2.2⟩
  rcases @nntpDoretrieve_cases _ (out.withPar par) options filec midinfo pw with ⟨e, -, hrun⟩ | ⟨fc, hfc, hrun⟩
  · simp only [hrun]
    exact ⟨fun _ => hkr, fun _ _ _ => List.prefix_rfl, fun _ _ => nofun⟩
  · have hlen := hlen fc hfc
    rcases hrun with ⟨midinfo', hrun⟩ | hrun
    · simp only [hrun]
      exact ⟨fun _ => hkr, fun _ _ _ => List.prefix_rfl, fun _ _ => nofun⟩
    · simp only [hrun]
      exact ⟨fun fuel => (retrieveLoop_keeps hone fuel _ hkr).1, fun fuel more => retrieveLoop_handed hone fuel more _ hkr,
        fun fuel hfuel => (retrieveLoop_keeps hone fuel _ hkr).2.2 (hlen ▸ hfuel)⟩

end

/-- A retrieval with autopar from a handler that was given files, each of whose subjects matches at most one local
    basename of a set: at every point of it an accepted file is in one list or was handed to the queue once, and stays
    there; the files of the sets are always added again; and the retrieval ends. -/
theorem doretrieve_keeps_par_files (out : Outside W) (par : ParOutside W) (options : NgetOptions) (requests : List ParRequest)
    (hone : ∀ r ∈ requests, par.OneBasename r.file) (w w' : W) (filec : NntpFilesU) (midinfo : MetaMidInfo) :
    let g := ParHandler.given par requests ⟨{}, [], w⟩
    RetrievalKeeps par ↑g.1
      (fun fuel => nntpDoretrieve (out.withPar par) options fuel filec midinfo { world := w', handler := g.2.info })
      (filec.files.length + g.1.length) := by
  intro g
  obtain ⟨hfiles, hsound, hmem⟩ :=
    @ParHandler.given_files W par requests ⟨{}, [], w⟩ fun e he => absurd he SortedMap.not_mem_empty
  have hstock : g.2.info.files = ↑g.1 := hfiles.trans (add_zero _)
  have hk : ParWorld.Keeps par ↑g.1 { world := w', handler := g.2.info } :=
    ⟨by rw [hstock]; exact add_zero _, hsound, nofun, nofun⟩
  have hleft : ParWorld.left { world := w', handler := g.2.info } = g.1.length := by
    rw [ParWorld.left, hstock]
    rfl
  have hkeeps := @nntpDoretrieve_keeps W par out options ↑g.1 filec midinfo { world := w', handler := g.2.info }
    (fun f hf => by
      obtain ⟨r, hr, rfl⟩ := hmem f (Multiset.mem_coe.mp hf)
      exact hone r hr) hk
  rwa [hleft] at hkeeps

end

/-! ### A par2 file -/

/-- Nothing is on disk. A subject that ends in `.par2` is that of a par2 file. -/
def samplePar : ParOutside Unit where
  lines _ := 0
  bytes _ := 0
  keyLt _ _ := false
  completeBlocks _ _ := 0
  autoparOptimistic := false
  parsubjRe _ := none
  par2subjRe subject :=
    if subject.drop (subject.length - 5) = ".par2".toList then some (subject.take (subject.length - 5)) else none
  par2pxxRe _ := none
  parfileRe _ := none
  par2fileRe _ := none
  subjmatchPar1 _ _ := none
  subjmatchPar2 _ _ := none
  readdir _ w := (.ok [], w)
  parfileGetSethash _ w := (none, w)
  par2fileGetSethash _ w := (none, w)
  parfileOk _ w := (none, w)
  parfileCheck _ _ w := (.ok 0, w)
  par2Process _ _ w := (.ok {}, w)
  setAutoparErrorStatus w := w
  setAutoparOkStatus w := w

def sampleParRequest : ParRequest :=
    ⟨{ (default : NntpFile) with subject := "a.par2".toList, req := 1, haveNum := 1 }, [], [], false⟩

/-- A complete file of one part. -/
def fileOf (subject mid : String) : NntpFile :=
  { (default : NntpFile) with subject := subject.toList, req := 1, haveNum := 1, parts := [⟨1, [], 0, mid.toList⟩] }

/-- `a.par2` is on disk, of a set that misses a block as often as it is looked at. A subject `b.vol0+1.par2` is that of a
    file of the set of `b` with the volume `.vol0+1`, which has one packet. -/
def localPar : ParOutside Unit :=
  { samplePar with
    par2pxxRe := fun basename =>
      if (basename.drop (basename.length - 7)).take 4 = ".vol".toList then some (basename.take (basename.length - 7)) else none
    par2fileRe := samplePar.par2subjRe
    subjmatchPar2 := fun basename subject =>
      if subject = basename ++ ".vol0+1.par2".toList then some (".vol0+1".toList, "0".toList, "1".toList) else none
    readdir := fun _ w => (.ok ["a.par2".toList], w)
    par2fileGetSethash := fun _ w => (some "k".toList, w)
    par2Process := fun _ _ w => (.ok { good := true, repairNotPossible := true, missingblockcount := 1 }, w) }

/-- The one set on disk has one basename. -/
theorem localPar_basenames {path key : Text} {w w' : Unit} {l : LocalParFiles}
    (hload : LocalParFiles.addfrompathPar2 localPar path w = (.ok l, w')) : (l.basenames key).length ≤ 1 := by
  have hl : l.subjmatches = [("k".toList, "a".toList)] := by
    cases hload
    decide
  unfold LocalParFiles.basenames
  rw [List.length_map, hl]
  exact List.length_filter_le _ _

theorem localPar_one (f : NntpFile) : localPar.OneBasename f := by
  intro path w l w' hload key
  exact (List.length_filter_le _ _).trans (localPar_basenames hload)

/-- A file of the set on disk, and two of a set of which nothing is on disk. -/
def sampleVolumes : List ParRequest :=
  [⟨fileOf "a.vol0+1.par2" "1", [], [], false⟩, ⟨fileOf "b.vol0+1.par2" "2", [], [], false⟩,
    ⟨fileOf "b.vol1+1.par2" "3", [], [], false⟩]

/-- A queue with one file that is no par file. -/
def dataQueue : NntpFilesU := ⟨0, [⟨[], [], fileOf "a.dat" "4", true⟩]⟩

/-- One file of the unknown set is got first; once the path has no file left to be got, the other one is added again and
    got, and so is the one that the set on disk misses. Then nothing is left. -/
theorem doretrieve_keeps_par_files_sample :
    let g := ParHandler.given localPar sampleVolumes ⟨{}, [], ()⟩
    let run := fun fuel => nntpDoretrieve (emptyOutside.withPar localPar) {} fuel dataQueue {}
      { world := (), handler := g.2.info }
    RetrievalKeeps localPar ↑g.1 run 4 ∧ g.1.length = 3 ∧ (run 1).state.world.handed.length = 1 ∧
      (run 2).state.world.handed.length = 3 ∧ (run 5).outcomes.length = 4 := by
  have hcount : (ParHandler.given localPar sampleVolumes ⟨{}, [], ()⟩).1.length = 3 := by decide +kernel
  have h := doretrieve_keeps_par_files emptyOutside localPar {} sampleVolumes (fun r _ => localPar_one r.file) () ()
    dataQueue {}
  dsimp only at h ⊢
  rw [hcount] at h
  exact ⟨h, hcount, by decide +kernel, by decide +kernel, by decide +kernel⟩

end Nget
