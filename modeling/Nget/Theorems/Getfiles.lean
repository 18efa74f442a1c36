import Nget.Getfiles
import Nget.Theorems.ParRetrieval

/-! The walk that chooses the files to retrieve, and where it queues a file twice. A file that the par handler accepts
    for one request goes on to the later requests, and each of them may give it to the handler or to the queue again.
    Where none does, and the subjects of the files that the handler has match one basename of a set each time that it
    reads a directory, every file of the cache is queued or handled at most once, and it is queued at most once however
    often the handler is asked later. -/

namespace Nget

section
variable {W : Type} {par : ParOutside W} {time : W → Int64}

/-! ### The steps of the walk -/

/-- A step of the walk: a request, a file, and what there was before. -/
structure Asked (W : Type) where
  info : NntpGetinfo
  file : NntpFile
  before : Getfiles W

namespace Asked

/-- The par handler is asked about the file. -/
def consults (par : ParOutside W) (s : Asked W) : Bool :=
  s.info.asks par s.file s.before.midinfo && !s.info.has getfilesAutoparDisablingFlags

/-- What the par handler says to the file. -/
def answer (par : ParOutside W) (s : Asked W) : Except ParStop Bool × ParCall ParHandler W :=
  ParHandler.maybeAddParfile par s.file s.info.path s.info.temppath (s.info.has getfilesGetincomplete)
    ⟨s.before.handler, [], s.before.world⟩

/-- The par handler accepts the file. -/
def accepts (par : ParOutside W) (s : Asked W) : Prop := s.consults par = true ∧ (s.answer par).1 = .ok true

/-- The file comes past the par handler: the request does without it, or it does not want the file, which is complete or
    may be incomplete. -/
def passes (par : ParOutside W) (s : Asked W) : Prop :=
  s.info.asks par s.file s.before.midinfo = true ∧ (s.info.has getfilesAutoparDisablingFlags = true ∨
    (s.answer par).1 = .ok false ∧ (s.info.has getfilesGetincomplete || s.file.iscomplete par.lines) = true)

/-- The file is queued: it comes past the par handler, it is not in the queue, and the dupe check does not find it. -/
def queues (par : ParOutside W) (s : Asked W) : Prop :=
  s.passes par ∧ s.before.fc.queued s.file = false ∧ s.info.dupe par s.file = false

instance {s : Asked W} : Decidable (s.accepts par) := inferInstanceAs (Decidable (_ ∧ _))

instance {s : Asked W} : Decidable (s.passes par) := inferInstanceAs (Decidable (_ ∧ _))

instance {s : Asked W} : Decidable (s.queues par) := inferInstanceAs (Decidable (_ ∧ _))

/-- What is queued. -/
def retr (s : Asked W) : NntpFileRetr := ⟨s.info.path, s.info.temppath, s.file, true⟩

end Asked

/-- What a step does, where nothing throws: it gives the file to the handler, or to the queue, or to neither. -/
structure StepSpec (par : ParOutside W) (s : Asked W) (e : GetfileEnd) (st : Getfiles W) : Prop where
  queue : s.queues par ∧ e = .done ∧ st.fc = s.before.fc.addfile par s.retr ∨ ¬s.queues par ∧ st.fc = s.before.fc
  files : s.accepts par ∧ st.handler.files = {s.file} + s.before.handler.files ∨
    ¬s.accepts par ∧ st.handler.files = s.before.handler.files
  known : (∀ stop, e ≠ .stopped stop) →
    ∀ path, st.handler.At path ↔ s.consults par = true ∧ path = s.info.path ∨ s.before.handler.At path
  sound : s.before.handler.Sound par → st.handler.Sound par

theorem Asked.not_queues_of_accepts {s : Asked W} (h : s.accepts par) : ¬s.queues par := by
  rintro ⟨⟨-, hdis | ⟨hanswer, -⟩⟩, -, -⟩
  · have := h.1
    simp [Asked.consults, hdis] at this
  · rw [h.2] at hanswer
    cases hanswer

/-- The end of the body, for a file that comes past the par handler. -/
theorem queueFile_spec {s : Asked W} {st : Getfiles W} (hpasses : s.passes par) (hfc : st.fc = s.before.fc)
    (hfiles : st.handler.files = s.before.handler.files)
    (hknown : ∀ path, st.handler.At path ↔ s.consults par = true ∧ path = s.info.path ∨ s.before.handler.At path)
    (hsound : s.before.handler.Sound par → st.handler.Sound par) (haccepts : ¬s.accepts par) :
    StepSpec par s (queueFile par time s.info s.file st).1 (queueFile par time s.info s.file st).2 := by
  unfold queueFile
  rw [hfc]
  split
  · next hqueued =>
    refine ⟨Or.inr ⟨fun h => ?_, hfc⟩, Or.inr ⟨haccepts, hfiles⟩, fun _ => hknown, hsound⟩
    rw [h.2.1] at hqueued
    cases hqueued
  · next hqueued =>
    split
    · next hdupe =>
      have hnot : ¬s.queues par := fun h => by
        rw [h.2.2] at hdupe
        cases hdupe
      split
      · exact ⟨Or.inr ⟨hnot, rfl⟩, Or.inr ⟨haccepts, hfiles⟩, fun _ => hknown, hsound⟩
      · exact ⟨Or.inr ⟨hnot, hfc⟩, Or.inr ⟨haccepts, hfiles⟩, fun _ => hknown, hsound⟩
    · next hdupe =>
      rw [Bool.not_eq_true] at hqueued hdupe
      exact ⟨Or.inl ⟨⟨hpasses, hqueued, hdupe⟩, rfl, rfl⟩, Or.inr ⟨haccepts, hfiles⟩, fun _ => hknown, hsound⟩

theorem getfileStep_spec (s : Asked W) :
    StepSpec par s (getfileStep par time s.info s.file s.before).1 (getfileStep par time s.info s.file s.before).2 := by
  unfold getfileStep
  split
  · next hasks =>
    rw [Bool.not_eq_true'] at hasks
    refine ⟨Or.inr ⟨fun h => ?_, rfl⟩, Or.inr ⟨fun h => ?_, rfl⟩, fun _ path => ?_, id⟩
    · have := h.1.1
      rw [hasks] at this
      cases this
    · have := h.1
      simp [Asked.consults, hasks] at this
    · simp [Asked.consults, hasks]
  · next hasks =>
    rw [Bool.not_eq_true', Bool.not_eq_false] at hasks
    split
    · next hdis =>
      refine queueFile_spec ⟨hasks, Or.inl hdis⟩ rfl rfl (fun path => ?_) id fun h => ?_
      · simp [Asked.consults, hdis]
      · have := h.1
        simp [Asked.consults, hdis] at this
    · next hdis =>
      have hconsults : s.consults par = true := by simp [Asked.consults, hasks, hdis]
      have hanswer : s.answer par = ParHandler.maybeAddParfile par s.file s.info.path s.info.temppath
        (s.info.has getfilesGetincomplete) ⟨s.before.handler, [], s.before.world⟩ := rfl
      rw [← hanswer]
      have hnext : ∀ {b : Bool} {c : ParCall ParHandler W}, s.answer par = (.ok b, c) →
          ∀ path, c.info.At path ↔ s.consults par = true ∧ path = s.info.path ∨ s.before.handler.At path :=
        fun h path => by
          rw [hanswer] at h
          rw [ParHandler.maybeAddParfile_at h, and_iff_right hconsults]
      have hnot : ∀ {r : Except ParStop Bool} {c : ParCall ParHandler W}, s.answer par = (r, c) → r ≠ .ok true →
          c.info.files = s.before.handler.files ∧ ¬s.accepts par := fun h hne => by
        obtain ⟨⟨rfl, -⟩ | ⟨-, hfiles⟩, -⟩ := ParHandler.maybeAddParfile_files (hanswer ▸ h)
        · exact absurd rfl hne
        · refine ⟨hfiles, fun haccepts => hne ?_⟩
          have := haccepts.2
          rw [h] at this
          exact this
      have hsound : ∀ {r : Except ParStop Bool} {c : ParCall ParHandler W}, s.answer par = (r, c) →
          s.before.handler.Sound par → c.info.Sound par := fun h => (ParHandler.maybeAddParfile_files (hanswer ▸ h)).2
      split
      · next stop c heq =>
        obtain ⟨hfiles, haccepts⟩ := hnot heq nofun
        refine ⟨Or.inr ⟨fun h => ?_, rfl⟩, Or.inr ⟨haccepts, hfiles⟩, fun h => absurd rfl (h stop), hsound heq⟩
        rcases h.1.2 with h | ⟨h, -⟩
        · exact hdis h
        · rw [heq] at h
          cases h
      · next c heq =>
        have haccepts : s.accepts par := ⟨hconsults, by rw [heq]⟩
        obtain ⟨⟨-, hfiles⟩ | ⟨hne, -⟩, -⟩ := ParHandler.maybeAddParfile_files (hanswer ▸ heq)
        · exact ⟨Or.inr ⟨Asked.not_queues_of_accepts haccepts, rfl⟩, Or.inl ⟨haccepts, hfiles⟩, fun _ => hnext heq, hsound heq⟩
        · exact absurd rfl hne
      · next c heq =>
        obtain ⟨hfiles, haccepts⟩ := hnot heq nofun
        split
        · next hinc =>
          refine ⟨Or.inr ⟨fun h => ?_, rfl⟩, Or.inr ⟨haccepts, hfiles⟩, fun _ => hnext heq, hsound heq⟩
          rcases h.1.2 with h | ⟨-, h⟩
          · exact hdis h
          · rw [h] at hinc
            cases hinc
        · next hinc =>
          rw [Bool.not_eq_true', Bool.not_eq_false] at hinc
          exact queueFile_spec ⟨hasks, Or.inr ⟨by rw [heq], hinc⟩⟩ rfl hfiles (hnext heq) (hsound heq) haccepts

/-! ### The walk -/

/-- The steps of the walk for a file, from a request on. -/
def fileSteps (par : ParOutside W) (time : W → Int64) (f : NntpFile) : List NntpGetinfo → Getfiles W → List (Asked W)
  | [], _ => []
  | info :: infos, st =>
    ⟨info, f, st⟩ ::
      match getfileStep par time info f st with
      | (.next, st) => fileSteps par time f infos st
      | _ => []

/-- The steps of the walk for each file. -/
def walkSteps (par : ParOutside W) (time : W → Int64) (infos : List NntpGetinfo) :
    List NntpFile → Getfiles W → List (List (Asked W))
  | [], _ => []
  | f :: fs, st =>
    fileSteps par time f infos st ::
      match nntpCacheGetfile par time f infos st with
      | (none, st) => walkSteps par time infos fs st
      | _ => []

/-- The files that are queued or in the par handler's lists. -/
def Getfiles.stock (st : Getfiles W) : Multiset NntpFile := filesOf st.fc.files + st.handler.files

theorem StepSpec.stock_eq {s : Asked W} {e : GetfileEnd} {st : Getfiles W} (h : StepSpec par s e st)
    (hnot : ¬s.accepts par ∧ ¬s.queues par) : st.stock = s.before.stock := by
  rcases h.queue with ⟨hq, -⟩ | ⟨-, hfc⟩
  · exact absurd hq hnot.2
  · rcases h.files with ⟨ha, -⟩ | ⟨-, hfiles⟩
    · exact absurd ha hnot.1
    · rw [Getfiles.stock, hfc, hfiles]
      rfl

theorem filesOf_addfile {fc : NntpFilesU} {fr : NntpFileRetr} :
    filesOf (fc.addfile par fr).files = {fr.file} + filesOf fc.files :=
  Multiset.coe_eq_coe.mpr (SortedList.insertUpper_perm.map NntpFileRetr.file)

theorem StepSpec.stock_add {s : Asked W} {e : GetfileEnd} {st : Getfiles W} (h : StepSpec par s e st)
    (htakes : s.accepts par ∨ s.queues par) : st.stock = {s.file} + s.before.stock := by
  rcases h.queue with ⟨hq, -, hfc⟩ | ⟨hq, hfc⟩
  · rcases h.files with ⟨ha, -⟩ | ⟨-, hfiles⟩
    · exact absurd hq (Asked.not_queues_of_accepts ha)
    · rw [Getfiles.stock, hfc, hfiles, filesOf_addfile, add_assoc]
      rfl
  · rcases h.files with ⟨-, hfiles⟩ | ⟨ha, -⟩
    · rw [Getfiles.stock, hfc, hfiles]
      exact add_left_comm _ _ _
    · exact absurd (htakes.resolve_left ha) hq

/-- Steps that take the file neither to the handler nor to the queue leave the stock. -/
theorem nntpCacheGetfile_stock_eq {f : NntpFile} : ∀ (infos : List NntpGetinfo) (st : Getfiles W),
    (∀ s ∈ fileSteps par time f infos st, ¬s.accepts par ∧ ¬s.queues par) →
      (nntpCacheGetfile par time f infos st).2.stock = st.stock
  | [], _, _ => rfl
  | info :: infos, st, h => by
    have hspec := @getfileStep_spec W par time ⟨info, f, st⟩
    unfold fileSteps at h
    unfold nntpCacheGetfile
    dsimp only at hspec
    rw [List.forall_mem_cons] at h
    have heq := hspec.stock_eq h.1
    generalize getfileStep par time info f st = r at h heq ⊢
    obtain ⟨e, st'⟩ := r
    cases e with
    | next => exact (nntpCacheGetfile_stock_eq infos st' h.2).trans heq
    | done => exact heq
    | stopped stop => exact heq

/-- The file goes to the handler or to the queue once at most, when after the handler accepts it no later request has it
    accepted or queued. -/
def TakenOnce (par : ParOutside W) (steps : List (Asked W)) : Prop :=
  steps.Pairwise fun s s' => s.accepts par → ¬s'.accepts par ∧ ¬s'.queues par

instance {steps : List (Asked W)} : Decidable (TakenOnce par steps) := inferInstanceAs (Decidable (List.Pairwise _ _))

theorem nntpCacheGetfile_stock_le {f : NntpFile} : ∀ (infos : List NntpGetinfo) (st : Getfiles W),
    TakenOnce par (fileSteps par time f infos st) → (nntpCacheGetfile par time f infos st).2.stock ≤ {f} + st.stock
  | [], _, _ => Multiset.le_add_left _ _
  | info :: infos, st, h => by
    have hspec := @getfileStep_spec W par time ⟨info, f, st⟩
    unfold fileSteps TakenOnce at h
    unfold nntpCacheGetfile
    dsimp only at hspec
    obtain ⟨hhead, htail⟩ := List.pairwise_cons.mp h
    by_cases haccepts : Asked.accepts par ⟨info, f, st⟩
    · have hadd := hspec.stock_add (Or.inl haccepts)
      generalize getfileStep par time info f st = r at hhead hadd ⊢
      obtain ⟨e, st'⟩ := r
      cases e with
      | next => exact ((nntpCacheGetfile_stock_eq infos st' fun s hs => hhead s hs haccepts).trans hadd).le
      | done => exact hadd.le
      | stopped stop => exact hadd.le
    · by_cases hqueues : Asked.queues par ⟨info, f, st⟩
      · have hadd := hspec.stock_add (Or.inr hqueues)
        have hdone : (getfileStep par time info f st).1 = .done := by
          rcases hspec.queue with ⟨-, hdone, -⟩ | ⟨hq, -⟩
          · exact hdone
          · exact absurd hqueues hq
        generalize getfileStep par time info f st = r at hdone hadd ⊢
        obtain ⟨e, st'⟩ := r
        cases hdone
        exact hadd.le
      · have heq := hspec.stock_eq ⟨haccepts, hqueues⟩
        generalize getfileStep par time info f st = r at htail heq ⊢
        obtain ⟨e, st'⟩ := r
        cases e with
        | next => exact (nntpCacheGetfile_stock_le infos st' htail).trans (heq ▸ le_rfl)
        | done => exact heq.le.trans (Multiset.le_add_left _ _)
        | stopped stop => exact heq.le.trans (Multiset.le_add_left _ _)

/-- The walk for a file leaves the handler with files of its sets that can be added again. -/
theorem nntpCacheGetfile_handler {f : NntpFile} : ∀ (infos : List NntpGetinfo) (st : Getfiles W), st.handler.Sound par →
    (nntpCacheGetfile par time f infos st).2.handler.Sound par
  | [], _, hs => hs
  | info :: infos, st, hs => by
    have hsound := (@getfileStep_spec W par time ⟨info, f, st⟩).sound hs
    unfold nntpCacheGetfile
    dsimp only at hsound
    generalize getfileStep par time info f st = r at hsound ⊢
    obtain ⟨e, st'⟩ := r
    cases e with
    | next => exact nntpCacheGetfile_handler infos st' hsound
    | done => exact hsound
    | stopped stop => exact hsound

theorem getfiles_sound {infos : List NntpGetinfo} : ∀ (fs : List NntpFile) (st : Getfiles W), st.handler.Sound par →
    (getfiles par time infos fs st).2.handler.Sound par
  | [], _, hs => hs
  | f :: fs, st, hs => by
    have hs' := @nntpCacheGetfile_handler W par time f infos st hs
    unfold getfiles
    generalize nntpCacheGetfile par time f infos st = r at hs' ⊢
    obtain ⟨stop | stop, st'⟩ := r
    · exact getfiles_sound fs st' hs'
    · exact hs'

/-- The walk over the cache queues or handles each file at most once. -/
theorem getfiles_stock_le {infos : List NntpGetinfo} : ∀ (fs : List NntpFile) (st : Getfiles W),
    (∀ steps ∈ walkSteps par time infos fs st, TakenOnce par steps) →
      (getfiles par time infos fs st).2.stock ≤ ↑fs + st.stock
  | [], st, _ => Multiset.le_add_left _ _
  | f :: fs, st, honce => by
    unfold walkSteps at honce
    rw [List.forall_mem_cons] at honce
    have hle := nntpCacheGetfile_stock_le infos st honce.1
    unfold getfiles
    rw [← Multiset.cons_coe, ← Multiset.singleton_add]
    generalize nntpCacheGetfile par time f infos st = r at honce hle ⊢
    obtain ⟨stop | stop, st'⟩ := r
    · calc (getfiles par time infos fs st').2.stock
        _ ≤ ↑fs + st'.stock := getfiles_stock_le fs st' honce.2
        _ ≤ ↑fs + ({f} + st.stock) := Multiset.add_le_add_left hle
        _ = {f} + ↑fs + st.stock := by abel
    · refine hle.trans ?_
      rw [add_assoc]
      exact Multiset.add_le_add_left (Multiset.le_add_left _ _)

/-! ### The later calls -/

/-- The handler asked for paths one after the other, each time with the outside world as it then is. A call that throws
    leaves what it has done. -/
def ParHandler.later (par : ParOutside W) : List (Text × W) → ParCall ParHandler W → ParCall ParHandler W
  | [], st => st
  | (path, world) :: calls, st => later par calls (ParHandler.maybeGetPxxs par path { st with world }).2

/-- The calls for par2 files in these calls. -/
def ParHandler.laterLoads (par : ParOutside W) : List (Text × W) → ParCall ParHandler W → List (ParCall ParXInfo W)
  | [], _ => []
  | (path, world) :: calls, st =>
    (ParHandler.callLoad par path { st with world }).toList ++
      laterLoads par calls (ParHandler.maybeGetPxxs par path { st with world }).2

theorem ParHandler.later_moved : ∀ (calls : List (Text × W)) (st : ParCall ParHandler W),
    (∀ load ∈ ParHandler.laterLoads par calls st, load.OneBasename par) → st.info.Sound par →
      Moved True ParHandler.files ParHandler.At st (ParHandler.later par calls st)
  | [], _, _, _ => Moved.refl rfl rfl fun _ => Iff.rfl
  | (path, world) :: calls, st, hone, hs => by
    unfold ParHandler.laterLoads at hone
    unfold ParHandler.later
    have hcall := fun (_ : True) load hload => hone load (List.mem_append_left _ (Option.mem_toList.mpr hload))
    have hrest := fun load hload => hone load (List.mem_append_right _ hload)
    have hworld : Moved True ParHandler.files ParHandler.At st { st with world } := Moved.refl rfl rfl fun _ => Iff.rfl
    rcases @ParHandler.maybeGetPxxs_sound W par True path { st with world } hcall hs with h | ⟨-, heq⟩
    · exact (hworld.trans h.moved).trans (later_moved calls _ hrest h.sound)
    · rw [heq] at hrest ⊢
      exact hworld.trans (later_moved calls { st with world } hrest hs)

/-- Each time that `get_initial_pars` and the later calls read a directory. -/
def ParHandler.runLoads (par : ParOutside W) (fc : NntpFilesU) (calls : List (Text × W)) (st : ParCall ParHandler W) :
    List (ParCall ParXInfo W) :=
  ParHandler.initialLoads par fc st ++ ParHandler.laterLoads par calls (ParHandler.getInitialPars par fc st).2

/-- Where no file that the handler accepts for one request is accepted or queued again for a later one, and where each time
    that the handler reads a directory the subject of a file that it has for the path matches one basename of each set at
    most, no file is queued twice, or queued and in the handler's lists: not after the walk and `get_initial_pars`, and
    not after any later calls. What was ever queued counts. -/
theorem getfiles_queued_once (par : ParOutside W) (time : W → Int64) (infos : List NntpGetinfo) (files : List NntpFile)
    (midinfo : MetaMidInfo) (w w' : W) (calls : List (Text × W))
    (honce : ∀ steps ∈ walkSteps par time infos files { midinfo, world := w }, TakenOnce par steps) :
    let st := (getfiles par time infos files { midinfo, world := w }).2
    let c := ParHandler.later par calls (ParHandler.getInitialPars par st.fc ⟨st.handler, [], w'⟩).2
    (∀ load ∈ ParHandler.runLoads par st.fc calls ⟨st.handler, [], w'⟩, load.OneBasename par) →
      filesOf (st.fc.files ++ c.added) + c.info.files ≤ ↑files := by
  intro st c hone
  have hempty : ParHandler.Sound par {} := fun e he => absurd he SortedMap.not_mem_empty
  have hs : st.handler.Sound par := getfiles_sound files _ hempty
  have hle := getfiles_stock_le files { midinfo, world := w } honce
  have hinitial := @ParHandler.getInitialPars_sound W par True st.fc ⟨st.handler, [], w'⟩
    (fun _ load hload => hone load (List.mem_append_left _ hload)) hs
  have hmoved := hinitial.moved.trans
    (ParHandler.later_moved calls _ (fun load hload => hone load (List.mem_append_right _ hload)) hinitial.sound)
  obtain ⟨new, hadded, hfiles, -, -⟩ := hmoved
  have hadded : c.added = new := hadded.trans (List.nil_append _)
  calc filesOf (st.fc.files ++ c.added) + c.info.files
    _ = filesOf st.fc.files + (filesOf new + c.info.files) := by rw [hadded, filesOf_append, add_assoc]
    _ = st.stock := by
      rw [hfiles trivial]
      rfl
    _ ≤ ↑files := hle.trans (add_zero _).le

end

/-! ### Two requests for a par file -/

/-- A request for every file. -/
def sampleRequest : NntpGetinfo := ⟨[], [], 0, fun _ => true, fun _ _ _ => false⟩

/-- The same files without autopar, after a dupe check that finds each of them. -/
def sampleOverlap : NntpGetinfo :=
  { sampleRequest with flags := getfilesNoautopar, checkhavefile := fun _ _ _ => true }

/-- A file of the set that is on disk, and one that is no par file. -/
def sampleCache : List NntpFile := [fileOf "a.vol0+1.par2" "1", fileOf "a.dat" "4"]

/-- Both requests ask for both files. The first one has the par file accepted and queues the other file; the par file comes
    to the queue in the first later call, and no other time. -/
theorem getfiles_queued_once_sample :
    let st := (getfiles localPar (fun _ => 0) [sampleRequest, sampleOverlap] sampleCache { midinfo := {}, world := () }).2
    let c := ParHandler.later localPar [([], ()), ([], ())]
      (ParHandler.getInitialPars localPar st.fc ⟨st.handler, [], ()⟩).2
    filesOf (st.fc.files ++ c.added) + c.info.files ≤ ↑sampleCache ∧ st.fc.files.length = 1 ∧ c.added.length = 1 := by
  have hle := getfiles_queued_once localPar (fun _ => 0) [sampleRequest, sampleOverlap] sampleCache {} () () [([], ()), ([], ())]
    (by decide +kernel) fun load _ l w' hl f _ key => (List.length_filter_le _ _).trans (localPar_basenames hl)
  exact ⟨hle, by decide +kernel, by decide +kernel⟩

/-- With two requests for a par file it is queued twice. -/
theorem getfiles_queues_twice : ¬∀ (par : ParOutside Unit) (time : Unit → Int64) (infos : List NntpGetinfo)
    (files : List NntpFile) (midinfo : MetaMidInfo) (calls : List (Text × Unit)),
    let st := (getfiles par time infos files { midinfo, world := () }).2
    let c := ParHandler.later par calls (ParHandler.getInitialPars par st.fc ⟨st.handler, [], ()⟩).2
    filesOf (st.fc.files ++ c.added) + c.info.files ≤ ↑files := by
  intro h
  have hle := Multiset.card_le_card (h samplePar (fun _ => 0) [sampleRequest, sampleRequest] [sampleParRequest.file] {} [])
  revert hle
  decide +kernel

end Nget
