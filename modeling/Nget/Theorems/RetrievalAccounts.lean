import Nget.Theorems.ParRetrieval

/-! The accounts of a retrieval. Each way through the loop over the parts takes the size of the part off
    `bytesleft` once, so when a file is erased `bytesleft` is the size of the files behind it, and `filec.bytes`
    is set to that. The counters are words, and the sizes are added up as words. -/

namespace Nget
open CString

/-- The sum of the sizes of files. -/
def queueBytes {W : Type} (out : Outside W) (files : List NntpFileRetr) :
    UInt64 := (files.map fun fr => fileBytes out fr.file).sum

section
variable {W : Type} {out : Outside W} {options : NgetOptions} {fr : NntpFileRetr}

theorem queueBytes_cons {files : List NntpFileRetr} :
    queueBytes out (fr :: files) = fileBytes out fr.file + queueBytes out files := rfl

theorem queueBytes_append {files files' : List NntpFileRetr} :
    queueBytes out (files ++ files') = queueBytes out files + queueBytes out files' := by
  induction files with
  | nil => simp [queueBytes]
  | cons fr files ih => rw [List.cons_append, queueBytes_cons, queueBytes_cons, ih, UInt64.add_assoc]

theorem queueBytes_perm {files files' : List NntpFileRetr} (h : files.Perm files') :
    queueBytes out files = queueBytes out files' := by
  induction h with
  | nil => rfl
  | cons fr _ ih => rw [queueBytes_cons, queueBytes_cons, ih]
  | swap fr fr' files =>
    simp only [queueBytes_cons]
    rw [← UInt64.add_assoc, UInt64.add_comm (fileBytes out fr'.file), UInt64.add_assoc]
  | trans _ _ ih ih' => exact ih.trans ih'

theorem foldl_add_parts {g : NntpPart → UInt64} :
    ∀ (ps : List NntpPart) (b : UInt64), ps.foldl (fun b p => b + g p) b = b + (ps.map g).sum
  | [], b => by simp
  | p :: ps, b => by
    rw [List.foldl_cons, foldl_add_parts ps (b + g p), List.map_cons, List.sum_cons, UInt64.add_assoc]

theorem fileBytes_eq {f : NntpFile} : fileBytes out f = (f.parts.map out.bytes).sum := by
  rw [fileBytes, foldl_add_parts, UInt64.zero_add]

/-! ### The parts of a file -/

/-- However a part is left behind, its size is counted once. -/
theorem retrievePart_bytesleft {p : NntpPart} {st st' : PartsState W} (h : retrievePart out options fr p st = (none, st')) :
    st'.bytesleft = st.bytesleft - out.bytes p := by
  unfold retrievePart at h
  dsimp only at h
  split at h
  · -- A part failed before.
    cases h
    rfl
  · split at h
    · -- The part is already present.
      cases h
      rfl
    · split at h
      · -- `writelite`.
        generalize out.dowriteliteArticle p _ st.world = r at h
        obtain ⟨e | u, world⟩ := r
        · cases h
        · cases h
          rfl
      · generalize (if options.has getfilesNoconnect = true then _ else _ : Except Text Int32 × W) = r at h
        obtain ⟨e | r, world⟩ := r
        · cases h
        · dsimp only at h
          split at h
          · -- The part is downloaded.
            cases h
            rfl
          · split at h
            · -- It failed, and incomplete files are to be got, or not.
              cases h
              rfl
            · cases h
              rfl

theorem retrieveParts_bytesleft :
    ∀ (ps : List NntpPart) (st st' : PartsState W), retrieveParts out options fr ps st = (none, st') →
    st'.bytesleft + (ps.map out.bytes).sum = st.bytesleft
  | [], st, st', h => by
    cases h
    simp
  | p :: ps, st, st', h => by
    unfold retrieveParts at h
    split at h
    · cases h
    · next st₁ hpart =>
      have hone := retrievePart_bytesleft hpart
      have hrest := retrieveParts_bytesleft ps st₁ st' h
      rw [List.map_cons, List.sum_cons]
      grind

/-! ### The first file of the queue -/

/-- The files that are taken out and the files that stay have the size of all together. -/
theorem queueBytes_filter (isDupe : NntpFileRetr → Bool) (files : List NntpFileRetr) :
    queueBytes out (files.filter isDupe) + queueBytes out (files.filter fun dfr => !isDupe dfr) = queueBytes out files := by
  rw [← queueBytes_append]
  exact queueBytes_perm (List.filter_append_perm isDupe files)

theorem foldl_sub_files : ∀ (files : List NntpFileRetr) (b : UInt64),
    files.foldl (fun b dfr => b - fileBytes out dfr.file) b = b - queueBytes out files
  | [], b => by simp [queueBytes]
  | dfr :: files, b => by
    rw [List.foldl_cons, foldl_sub_files files, queueBytes_cons]
    grind

/-- The first file of the queue is done but for being erased: `bytesleft` is the size of the others. -/
structure FirstDone (out : Outside W) (fr : NntpFileRetr) (frs : List NntpFileRetr) (st : Retrieving W) : Prop where
  files : st.filec.files = fr :: frs
  left : st.bytesleft = queueBytes out frs
  count : st.filestot - st.filesdone = UInt64.ofNat (frs.length + 1)

theorem removeDupes_accounts {flist : List (Text × UInt64)} {frs : List NntpFileRetr} {st : Retrieving W}
    (h : FirstDone out fr frs st) :
    ∃ frs', FirstDone out fr frs' (removeDupes out fr flist st) := by
  obtain ⟨isDupe, hisDupe⟩ : ∃ isDupe : NntpFileRetr → Bool, isDupe = fun dfr : NntpFileRetr =>
      dfr.dupecheck && decide (dfr.path = fr.path)
        && checkhavefile out flist dfr.file.subject (fileBytes out dfr.file) := ⟨_, rfl⟩
  refine ⟨frs.filter fun dfr => !isDupe dfr, ?_, ?_, ?_⟩
  · rw [hisDupe]
    simp only [removeDupes, h.files]
    rfl
  · simp only [removeDupes, h.files, ← hisDupe, List.tail_cons]
    rw [foldl_sub_files, h.left]
    have := @queueBytes_filter W out isDupe frs
    grind
  · simp only [removeDupes, h.files, ← hisDupe, List.tail_cons]
    have hcount := h.count
    have hlen : frs.length = (frs.filter isDupe).length + (frs.filter fun dfr => !isDupe dfr).length := by
      rw [← List.length_append]
      exact (List.filter_append_perm isDupe frs).length_eq.symm
    rw [hlen, UInt64.ofNat_add, UInt64.ofNat_add] at hcount
    rw [UInt64.ofNat_add]
    grind

/-- The counters agree with the queue. -/
structure Accounted (out : Outside W) (st : Retrieving W) : Prop where
  queued : st.filec.bytes = queueBytes out st.filec.files
  left : st.bytesleft = queueBytes out st.filec.files
  count : st.filestot - st.filesdone = UInt64.ofNat st.filec.files.length

theorem retrieveFile_accounts {outcome : FileOutcome W} {frs : List NntpFileRetr} {st st' : Retrieving W}
    (hfiles : st.filec.files = fr :: frs) (h : Accounted out st) (hfile : retrieveFile out options fr st = (.ok outcome, st')) :
    ∃ frs', FirstDone out fr frs' st' := by
  unfold retrieveFile at hfile
  split at hfile
  · cases hfile
  · next ps hparts =>
    have hleft : ps.bytesleft = queueBytes out frs := by
      have hsum := retrieveParts_bytesleft fr.file.parts _ _ hparts
      have hall := h.left
      rw [hfiles, queueBytes_cons, fileBytes_eq] at hall
      dsimp only at hsum
      grind
    have hcount := h.count
    rw [hfiles, List.length_cons] at hcount
    dsimp only at hfile
    split at hfile
    · -- A part failed.
      cases hfile
      exact ⟨frs, hfiles, hleft, hcount⟩
    · split at hfile
      · cases hfile
        exact ⟨frs, hfiles, hleft, hcount⟩
      · generalize decode out options fr ps.fnbuf ps.world = r at hfile
        obtain ⟨e | ⟨derr, flist⟩, world⟩ := r
        · cases hfile
        · dsimp only at hfile
          split at hfile
          · split at hfile
            · cases hfile
              exact ⟨frs, hfiles, hleft, hcount⟩
            · cases hfile
              exact removeDupes_accounts ⟨hfiles, hleft, hcount⟩
          · cases hfile
            exact ⟨frs, hfiles, hleft, hcount⟩

end

/-! ### The par handler -/

section
variable {W : Type} {out : Outside W} {par : ParOutside W} {options : NgetOptions} {fr : NntpFileRetr}

theorem addfile_bytes {fc : NntpFilesU} : ∀ new : List NntpFileRetr,
    (new.foldl (NntpFilesU.addfile par) fc).bytes = fc.bytes + queueBytes (out.withPar par) new := by
  intro new
  induction new generalizing fc with
  | nil => simp [queueBytes]
  | cons fr new ih =>
    rw [List.foldl_cons, ih, queueBytes_cons, ← UInt64.add_assoc]
    rfl

/-- What the handler adds to the queue is counted in `filec.bytes`. -/
theorem addfile_counted {fc : NntpFilesU} (h : fc.bytes = queueBytes (out.withPar par) fc.files) (new : List NntpFileRetr) :
    (new.foldl (NntpFilesU.addfile par) fc).bytes =
      queueBytes (out.withPar par) (new.foldl (NntpFilesU.addfile par) fc).files := by
  rw [@addfile_bytes W out par fc new, queueBytes_perm (addfile_perm new), queueBytes_append, h, UInt64.add_comm]

theorem ParWorld.call_queue {f : ParCall ParHandler W → Option ParStop × ParCall ParHandler W}
    {fc fc' : NntpFilesU} {pw pw' : ParWorld W}
    (h : pw.call par f fc = (.ok fc', pw')) : ∃ new : List NntpFileRetr, fc' = new.foldl (NntpFilesU.addfile par) fc := by
  unfold ParWorld.call at h
  generalize f ⟨pw.handler, [], pw.world⟩ = r at h
  obtain ⟨stop, st⟩ := r
  cases stop with
  | none =>
    cases h
    exact ⟨st.added, rfl⟩
  | some stop => cases stop <;> cases h

theorem eraseCurrent_accounts {frs : List NntpFileRetr} {st st' : Retrieving (ParWorld W)}
    (h : FirstDone (out.withPar par) fr frs st)
    (herase : eraseCurrent (out.withPar par) options fr st = (none, st')) : Accounted (out.withPar par) st' := by
  have hcount : st.filestot - (st.filesdone + 1) = UInt64.ofNat frs.length := by
    have := h.count
    rw [UInt64.ofNat_add] at this
    grind
  unfold eraseCurrent at herase
  rw [h.files, List.tail_cons] at herase
  dsimp only at herase
  split at herase
  · cases herase
    exact ⟨h.left, h.left, hcount⟩
  · generalize hcall : (out.withPar par).maybeGetPxxs fr.path ⟨st.bytesleft, frs⟩ st.world = r at herase
    obtain ⟨e | filec, pw⟩ := r
    · cases herase
    · cases herase
      obtain ⟨new, rfl⟩ := @ParWorld.call_queue W par (ParHandler.maybeGetPxxs par fr.path) _ _ _ _ hcall
      have hqueued := @addfile_counted W out par ⟨st.bytesleft, frs⟩ h.left new
      refine ⟨hqueued, hqueued, ?_⟩
      dsimp only
      grind

/-! ### The run -/

/-- The loop that is stopped after so many files stands before the test of the next one. -/
theorem retrieveLoop_accounts : ∀ (fuel : Nat) (st : Retrieving (ParWorld W)), Accounted (out.withPar par) st →
    (∀ e, (retrieveLoop (out.withPar par) options fuel st).atEnd ≠ .thrown e) →
      Accounted (out.withPar par) (retrieveLoop (out.withPar par) options fuel st).state
  | 0, _, h, _ => h
  | fuel + 1, st, h, hend => by
    unfold retrieveLoop at hend ⊢
    cases hfiles : st.filec.files with
    | nil => exact h
    | cons fr frs =>
      rw [hfiles] at hend
      dsimp only at hend ⊢
      generalize hfile : retrieveFile (out.withPar par) options fr st = r at hend ⊢
      obtain ⟨e | outcome, st₁⟩ := r
      · exact absurd rfl (hend e)
      · dsimp only at hend ⊢
        generalize herase : eraseCurrent (out.withPar par) options fr st₁ = r at hend ⊢
        obtain ⟨stop | e, st₂⟩ := r
        · obtain ⟨frs', hdone⟩ := retrieveFile_accounts hfiles h hfile
          exact retrieveLoop_accounts fuel st₂ (eraseCurrent_accounts hdone herase) hend
        · exact absurd rfl (hend e)

theorem initial_accounts {filec fc : NntpFilesU} {midinfo : MetaMidInfo} {pw : ParWorld W}
    (hfilec : filec.bytes = queueBytes (out.withPar par) filec.files)
    (hinitial : (parsBefore (out.withPar par) options filec pw).1 = .ok fc) :
    Accounted (out.withPar par) (Retrieving.initial fc midinfo (parsBefore (out.withPar par) options filec pw).2) := by
  have hfc : fc.bytes = queueBytes (out.withPar par) fc.files := by
    unfold parsBefore at hinitial
    split at hinitial
    · cases hinitial
      exact hfilec
    · obtain ⟨new, rfl⟩ :=
        @ParWorld.call_queue W par (ParHandler.getInitialPars par filec) _ _ _ _ (Prod.ext hinitial rfl)
      exact addfile_counted hfilec new
  exact ⟨hfc, hfc, UInt64.sub_zero _⟩

/-- Whatever the outcomes are, the counters agree with the queue each time before it is tested for being
    empty. -/
theorem doretrieve_accounts {fuel : Nat} {filec : NntpFilesU} {midinfo : MetaMidInfo} {pw : ParWorld W}
    (hfilec : filec.bytes = queueBytes (out.withPar par) filec.files)
    (hend : ∀ e, (nntpDoretrieve (out.withPar par) options fuel filec midinfo pw).atEnd ≠ .thrown e) :
    Accounted (out.withPar par) (nntpDoretrieve (out.withPar par) options fuel filec midinfo pw).state := by
  rcases @nntpDoretrieve_cases _ (out.withPar par) options filec midinfo pw with ⟨e, -, hrun⟩ | ⟨fc, hinitial, hrun⟩
  · rw [hrun] at hend
    exact absurd rfl (hend e)
  · have hst := @initial_accounts W out par options filec fc midinfo pw hfilec hinitial
    rcases hrun with ⟨midinfo', hrun⟩ | hrun
    · rw [hrun]
      exact ⟨hst.queued, hst.left, hst.count⟩
    · rw [hrun] at hend ⊢
      exact retrieveLoop_accounts fuel _ hst hend

end

/-- One file of two parts of ten bytes each, of which the handler knows the path. -/
def sampleAccounts : NntpFilesU := NntpFilesU.addfile { samplePar with bytes := fun _ => 10 } {}
  ⟨[], [], { (default : NntpFile) with parts := [⟨1, [], 0, ['m']⟩, ⟨2, [], 0, ['n']⟩], haveNum := 2 }, true⟩

theorem doretrieve_accounts_sample :
    let par : ParOutside Unit := { samplePar with bytes := fun _ => 10 }
    let run := nntpDoretrieve (emptyOutside.withPar par) { gflags := getfilesNoautopar } 1 sampleAccounts {} { world := () }
    sampleAccounts.bytes = 20 ∧ Accounted (emptyOutside.withPar par) run.state := by
  refine ⟨by decide, doretrieve_accounts (by decide) fun e he => ?_⟩
  cases he

section
variable {W : Type} {out : Outside W} {par : ParOutside W} {options : NgetOptions} {fr : NntpFileRetr}

/-! ### A run that is cut off -/

theorem retrieveFile_thrown_queue {V : Type} {out : Outside V} {e : Text} {st st' : Retrieving V}
    (h : retrieveFile out options fr st = (.error e, st')) : st'.filec = st.filec := by
  unfold retrieveFile at h
  split at h
  · cases h
    rfl
  · next ps hparts =>
    dsimp only at h
    split at h
    · cases h
    · split at h
      · cases h
      · generalize decode out options fr ps.fnbuf ps.world = r at h
        obtain ⟨e | ⟨derr, flist⟩, world⟩ := r
        · cases h
          rfl
        · dsimp only at h
          split at h <;> cases h

theorem eraseCurrent_thrown_queue {V : Type} {out : Outside V} {e : Text} {st st' : Retrieving V}
    (h : eraseCurrent out options fr st = (some e, st')) : st'.filec = ⟨st.bytesleft, st.filec.files.tail⟩ := by
  unfold eraseCurrent at h
  dsimp only at h
  split at h
  · cases h
  · generalize out.maybeGetPxxs fr.path _ st.world = r at h
    obtain ⟨e | filec, pw⟩ := r
    · cases h
      rfl
    · cases h

theorem retrieveLoop_queue : ∀ (fuel : Nat) (st : Retrieving (ParWorld W)), Accounted (out.withPar par) st →
    (retrieveLoop (out.withPar par) options fuel st).state.filec.bytes =
      queueBytes (out.withPar par) (retrieveLoop (out.withPar par) options fuel st).state.filec.files
  | 0, _, h => h.queued
  | fuel + 1, st, h => by
    unfold retrieveLoop
    cases hfiles : st.filec.files with
    | nil => exact h.queued
    | cons fr frs =>
      dsimp only
      generalize hfile : retrieveFile (out.withPar par) options fr st = r
      obtain ⟨e | outcome, st₁⟩ := r
      · dsimp only
        rw [retrieveFile_thrown_queue hfile]
        exact h.queued
      · obtain ⟨frs', hdone⟩ := retrieveFile_accounts hfiles h hfile
        dsimp only
        generalize herase : eraseCurrent (out.withPar par) options fr st₁ = r
        obtain ⟨stop | e, st₂⟩ := r
        · exact retrieveLoop_queue fuel st₂ (eraseCurrent_accounts hdone herase)
        · dsimp only
          rw [eraseCurrent_thrown_queue herase, hdone.files]
          exact hdone.left

/-- A run leaves a queue that the next one can start from, also when it is cut off. -/
theorem doretrieve_queue {fuel : Nat} {filec : NntpFilesU} {midinfo : MetaMidInfo} {pw : ParWorld W}
    (hfilec : filec.bytes = queueBytes (out.withPar par) filec.files) :
    let run := nntpDoretrieve (out.withPar par) options fuel filec midinfo pw
    run.state.filec.bytes = queueBytes (out.withPar par) run.state.filec.files := by
  dsimp only
  rcases @nntpDoretrieve_cases _ (out.withPar par) options filec midinfo pw with ⟨e, -, hrun⟩ | ⟨fc, hinitial, hrun⟩
  · rw [hrun]
    exact hfilec
  · have hst := @initial_accounts W out par options filec fc midinfo pw hfilec hinitial
    rcases hrun with ⟨midinfo', hrun⟩ | hrun
    · rw [hrun]
      exact hst.queued
    · rw [hrun]
      exact retrieveLoop_queue fuel _ hst

end
end Nget
