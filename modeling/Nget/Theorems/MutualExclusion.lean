import Nget.LockFile

/-! The protocol of the locks files keeps its promise. The file `.locks.locked` stands for a critical section, in
    which one process at most opens and locks the locks file, or looks at it and removes it (`alone`). So the locks
    file's name keeps the file that has the locks (`named`): its removal comes after a look at its locks, in the same
    critical section (`unlocked`). -/

namespace Nget
open Posix

namespace LockPc

/-- Between the creation of `.locks.locked` and its removal. -/
def critical : LockPc → Bool
  | .idle | .creating _ | .held _ _ | .recreating => false
  | _ => true

/-- The file behind `fd`. -/
def fd? : LockPc → Option Nat
  | .locking _ fd | .unlinking _ fd | .held _ fd | .checking fd | .closingChecked fd _ => some fd
  | _ => none

/-- The lock that the process has. -/
def lock? : LockPc → Option (LockMode × Nat)
  | .unlinking flag fd | .held flag fd => some (flag, fd)
  | _ => none

/-- The process has found no lock on the locks file. -/
def foundUnlocked : LockPc → Bool
  | .closingChecked _ unlocked => unlocked
  | .removing => true
  | _ => false

end LockPc

namespace LockState
variable {P : Type} {s s' : LockState P}

structure Inv (s : LockState P) : Prop where
  alone : ∀ p q, (s.pc p).critical = true → (s.pc q).critical = true → p = q
  guarded : ∀ p, (s.pc p).critical = true → s.fs.names .locklocksfile ≠ none
  locks : ∀ p i m, s.fs.locks p i = some m ↔ (s.pc p).lock? = some (m, i)
  named : ∀ p i, (s.pc p).fd? = some i → s.fs.names .locksfile = some i
  compatible : ∀ p q i m m', p ≠ q → s.fs.locks p i = some m → s.fs.locks q i = some m' → m.Compatible m'
  unlocked : ∀ p, (s.pc p).foundUnlocked = true → ∀ q i, s.fs.locks q i = none

theorem Initial.inv (h : s.Initial) : s.Inv where
  alone := by simp [h.pc, LockPc.critical]
  guarded := by simp [h.pc, LockPc.critical]
  locks := by simp [h.pc, h.locks, LockPc.lock?]
  named := by simp [h.pc, LockPc.fd?]
  compatible := by simp [h.locks]
  unlocked := by simp [h.locks]

/-- A lock is on the file that the locks file's name stands for. -/
theorem Inv.lock_named (h : s.Inv) {p : P} {i : Nat} {m : LockMode} (hm : s.fs.locks p i = some m) :
    s.fs.names .locksfile = some i := by
  have hlock := (h.locks p i m).mp hm
  refine h.named p i ?_
  cases hpc : s.pc p with
  | unlinking flag fd | held flag fd =>
    rw [hpc] at hlock
    cases hlock
    rfl
  | _ =>
    rw [hpc] at hlock
    cases hlock

/-! ### One call -/

variable [DecidableEq P] {p q : P} {pc : LockPc}

@[simp] theorem goto_fs {fs : Fs LockName P} : (s.goto p fs pc).fs = fs := rfl

@[simp] theorem goto_pc {fs : Fs LockName P} : (s.goto p fs pc).pc q = if q = p then pc else s.pc q :=
  Function.update_apply _ _ _ _

theorem goto_pc_self {fs : Fs LockName P} : (s.goto p fs pc).pc p = pc := Function.update_self _ _ _

theorem goto_pc_of_ne {fs : Fs LockName P} (hq : q ≠ p) : (s.goto p fs pc).pc q = s.pc q := Function.update_of_ne hq _ _

/-- What a call has to keep: the facts about the process that calls, and what the others count on. -/
theorem Inv.goto (h : s.Inv) {fs : Fs LockName P} (hcrit : pc.critical = true → ∀ q, q ≠ p → (s.pc q).critical ≠ true)
    (hguard : ∀ q, ((s.goto p fs pc).pc q).critical = true → fs.names .locklocksfile ≠ none)
    (hothers : ∀ q, q ≠ p → fs.locks q = s.fs.locks q) (hlocks : ∀ i m, fs.locks p i = some m ↔ pc.lock? = some (m, i))
    (hnamed : ∀ q i, ((s.goto p fs pc).pc q).fd? = some i → fs.names .locksfile = some i)
    (hcomp : ∀ q i m m', q ≠ p → fs.locks p i = some m → s.fs.locks q i = some m' → m.Compatible m')
    (hun : ∀ q, ((s.goto p fs pc).pc q).foundUnlocked = true → ∀ r i, fs.locks r i = none) : (s.goto p fs pc).Inv where
  alone q r hq hr := by
    by_cases hqp : q = p <;> by_cases hrp : r = p
    · exact hqp.trans hrp.symm
    · subst hqp
      rw [goto_pc_self] at hq
      rw [goto_pc_of_ne hrp] at hr
      exact absurd hr (hcrit hq r hrp)
    · subst hrp
      rw [goto_pc_self] at hr
      rw [goto_pc_of_ne hqp] at hq
      exact absurd hq (hcrit hr q hqp)
    · rw [goto_pc_of_ne hqp] at hq
      rw [goto_pc_of_ne hrp] at hr
      exact h.alone q r hq hr
  guarded := hguard
  locks q i m := by
    by_cases hqp : q = p
    · subst hqp
      rw [goto_pc_self]
      exact hlocks i m
    · rw [goto_pc_of_ne hqp, goto_fs, hothers q hqp]
      exact h.locks q i m
  named := hnamed
  compatible q r i m m' hqr hm hm' := by
    rw [goto_fs] at hm hm'
    by_cases hqp : q = p
    · subst hqp
      rw [hothers r (Ne.symm hqr)] at hm'
      exact hcomp r i m m' (Ne.symm hqr) hm hm'
    · rw [hothers q hqp] at hm
      by_cases hrp : r = p
      · subst hrp
        exact (hcomp q i m' m hqr hm' hm).symm
      · rw [hothers r hrp] at hm'
        exact h.compatible q r i m m' hqr hm hm'
  unlocked := hun

/-- A fact about each process, where one of them is at another call. -/
theorem goto_forall {fs : Fs LockName P} {Q : P → LockPc → Prop} (hp : Q p pc) (hothers : ∀ q, q ≠ p → Q q (s.pc q)) (q : P) :
    Q q ((s.goto p fs pc).pc q) := by
  by_cases hq : q = p
  · subst hq
    rw [goto_pc_self]
    exact hp
  · rw [goto_pc_of_ne hq]
    exact hothers q hq

/-- A call that leaves the locks as they are. -/
theorem Inv.goto_of_locks (h : s.Inv) {fs : Fs LockName P} (hsame : fs.locks = s.fs.locks)
    (hcrit : pc.critical = true → ∀ q, q ≠ p → (s.pc q).critical ≠ true)
    (hguard : ∀ q, ((s.goto p fs pc).pc q).critical = true → fs.names .locklocksfile ≠ none) (hlock : pc.lock? = (s.pc p).lock?)
    (hnamed : ∀ q i, ((s.goto p fs pc).pc q).fd? = some i → fs.names .locksfile = some i)
    (hun : pc.foundUnlocked = true → ∀ r i, s.fs.locks r i = none) : (s.goto p fs pc).Inv := by
  refine h.goto hcrit hguard (fun q _ => congrFun hsame q) (fun i m => ?_) hnamed (fun q i m m' hq hm hm' => ?_) ?_
  · rw [hsame, hlock]
    exact h.locks p i m
  · rw [hsame] at hm
    exact h.compatible p q i m m' (Ne.symm hq) hm hm'
  · rw [hsame]
    exact goto_forall (Q := fun _ pc => pc.foundUnlocked = true → ∀ r i, s.fs.locks r i = none) hun fun q _ => h.unlocked q

/-- A call that leaves the file system as it is. -/
theorem Inv.keep (h : s.Inv) (hcrit : pc.critical = (s.pc p).critical) (hlock : pc.lock? = (s.pc p).lock?)
    (hfd : ∀ i, pc.fd? = some i → s.fs.names .locksfile = some i)
    (hun : pc.foundUnlocked = true → ∀ q i, s.fs.locks q i = none) : (s.goto p s.fs pc).Inv := by
  refine h.goto_of_locks rfl (fun hc q hq hqc => ?_) ?_ hlock ?_ hun
  · exact hq (h.alone q p hqc (hcrit ▸ hc))
  · exact goto_forall (Q := fun _ pc => pc.critical = true → s.fs.names .locklocksfile ≠ none)
      (fun hc => h.guarded p (hcrit ▸ hc)) fun q _ => h.guarded q
  · exact goto_forall (Q := fun _ pc => ∀ i, pc.fd? = some i → s.fs.names .locksfile = some i) hfd fun q _ => h.named q

/-- The creation of `.locks.locked` succeeds when nobody is in the critical section. -/
theorem Inv.enter (h : s.Inv) (hnone : s.fs.names .locklocksfile = none) (hlock : (s.pc p).lock? = none)
    (hlock' : pc.lock? = none) (hfd : pc.fd? = none) (hun : pc.foundUnlocked = false) :
    (s.goto p (s.fs.create .locklocksfile) pc).Inv := by
  have hname : (s.fs.create .locklocksfile).names .locksfile = s.fs.names .locksfile := by simp
  refine h.goto_of_locks Fs.create_locks (fun _ q _ hqc => h.guarded q hqc hnone) (by simp) (hlock'.trans hlock.symm) ?_ ?_
  · rw [hname]
    refine goto_forall (Q := fun _ pc => ∀ i, pc.fd? = some i → s.fs.names .locksfile = some i) (fun i hi => ?_)
      fun q _ => h.named q
    rw [hfd] at hi
    cases hi
  · rw [hun]
    intro hfalse
    cases hfalse

/-- The process that is in the critical section leaves it. -/
theorem Inv.leave (h : s.Inv) (hcrit : (s.pc p).critical = true) (hcrit' : pc.critical = false)
    (hlock : pc.lock? = (s.pc p).lock?) (hfd : ∀ i, pc.fd? = some i → (s.pc p).fd? = some i) (hun : pc.foundUnlocked = false) :
    (s.goto p (s.fs.unlink .locklocksfile) pc).Inv := by
  have hname : (s.fs.unlink .locklocksfile).names .locksfile = s.fs.names .locksfile := by simp
  refine h.goto_of_locks Fs.unlink_locks (fun hc => ?_) ?_ hlock ?_ ?_
  · rw [hcrit'] at hc
    cases hc
  · refine goto_forall (Q := fun _ pc => pc.critical = true → _) (fun hc => ?_) fun q hq hc => ?_
    · rw [hcrit'] at hc
      cases hc
    · exact absurd (h.alone q p hc hcrit) hq
  · rw [hname]
    exact goto_forall (Q := fun _ pc => ∀ i, pc.fd? = some i → s.fs.names .locksfile = some i)
      (fun i hi => h.named p i (hfd i hi)) fun q _ => h.named q
  · rw [hun]
    intro hfalse
    cases hfalse

/-- A process closes its file, and its lock goes. -/
theorem Inv.close (h : s.Inv) {fd : Nat} (hfd : (s.pc p).fd? = some fd) (hcrit : pc.critical = (s.pc p).critical)
    (hlock : pc.lock? = none) (hfd' : pc.fd? = none) (hun : pc.foundUnlocked = true → (s.pc p).foundUnlocked = true) :
    (s.goto p (s.fs.setLock p fd none) pc).Inv := by
  have hnolock : ∀ i, (s.fs.setLock p fd none).locks p i = none := by
    intro i
    rw [Fs.setLock_locks]
    split
    · rfl
    · next hne =>
      -- its lock is on the file that it closes
      cases hm : s.fs.locks p i with
      | none => rfl
      | some m => exact absurd ⟨rfl, Option.some.inj ((h.lock_named hm).symm.trans (h.named p fd hfd))⟩ hne
  have hothers : ∀ q, q ≠ p → (s.fs.setLock p fd none).locks q = s.fs.locks q := by
    intro q hq
    funext i
    rw [Fs.setLock_locks, if_neg fun hand => hq hand.1]
  have hunlocked : ∀ q, (s.pc q).foundUnlocked = true → ∀ r i, (s.fs.setLock p fd none).locks r i = none := by
    intro q hq r i
    rw [Fs.setLock_locks]
    split
    · rfl
    · exact h.unlocked q hq r i
  refine h.goto (fun hc q hq hqc => ?_) ?_ hothers (fun i m => ?_) ?_ (fun q i m m' _ hm => ?_) ?_
  · exact hq (h.alone q p hqc (hcrit ▸ hc))
  · exact goto_forall (Q := fun _ pc => pc.critical = true → s.fs.names .locklocksfile ≠ none)
      (fun hc => h.guarded p (hcrit ▸ hc)) fun q _ => h.guarded q
  · rw [hnolock, hlock]
    exact iff_of_false (by simp) (by simp)
  · refine goto_forall (Q := fun _ pc => ∀ i, pc.fd? = some i → s.fs.names .locksfile = some i) (fun i hi => ?_)
      fun q _ => h.named q
    rw [hfd'] at hi
    cases hi
  · rw [hnolock] at hm
    cases hm
  · exact goto_forall (Q := fun _ pc => pc.foundUnlocked = true → _) (fun hp => hunlocked p (hun hp)) fun q _ => hunlocked q

/-- The locks file is opened, or made. A file that is made has a new name and no locks, and there were none. -/
theorem Inv.openLocks (h : s.Inv) {flag : WantLock} (hpc : s.pc p = .opening flag) :
    (s.goto p (s.fs.openCreat .locksfile).2 (.locking flag (s.fs.openCreat .locksfile).1)).Inv := by
  cases hname : s.fs.names .locksfile with
  | some i =>
    rw [Fs.openCreat_of_some hname]
    exact h.keep (by rw [hpc]; rfl) (by rw [hpc]; rfl) (fun j hj => by cases hj; exact hname) (by simp [LockPc.foundUnlocked])
  | none =>
    rw [Fs.openCreat_of_none hname]
    have hcrit : (s.pc p).critical = true := by
      rw [hpc]
      rfl
    have hother : (s.fs.create .locksfile).names .locklocksfile = s.fs.names .locklocksfile := by simp
    refine h.goto_of_locks Fs.create_locks (fun _ q hq hqc => hq (h.alone q p hqc hcrit)) ?_ (by rw [hpc]; rfl) ?_ ?_
    · rw [hother]
      exact goto_forall (Q := fun _ pc => pc.critical = true → s.fs.names .locklocksfile ≠ none)
        (fun _ => h.guarded p hcrit) fun q _ => h.guarded q
    · refine goto_forall (Q := fun _ pc => ∀ i, pc.fd? = some i → (s.fs.create .locksfile).names .locksfile = some i)
        (fun i hi => ?_) fun q _ i hi => ?_
      · cases hi
        simp
      · rw [h.named q i hi] at hname
        cases hname
    · intro hfalse
      cases hfalse

/-- The lock is set when no other process has one in its way; nobody has looked at the locks in between, since that
    takes the critical section. -/
theorem Inv.setlkw (h : s.Inv) {flag : WantLock} {fd : Nat} (hpc : s.pc p = .locking flag fd)
    (hfree : ¬s.fs.Conflict p fd flag) : (s.goto p (s.fs.setLock p fd (some flag)) (.unlinking flag fd)).Inv := by
  have hcrit : (s.pc p).critical = true := by
    rw [hpc]
    rfl
  have hothers : ∀ q m, q ≠ p → s.fs.locks q fd = some m → flag.Compatible m := fun q m hq hm => by
    by_contra hnot
    exact hfree ⟨q, m, hq, hm, hnot⟩
  have hnounlocked : ∀ q, q ≠ p → (s.pc q).foundUnlocked = false := fun q hq => by
    cases hq' : s.pc q with
    | closingChecked _ _ | removing => exact absurd (h.alone q p (by rw [hq']; rfl) hcrit) hq
    | _ => rfl
  have hkeep : ∀ q, q ≠ p → (s.fs.setLock p fd (some flag)).locks q = s.fs.locks q := by
    intro q hq
    funext i
    rw [Fs.setLock_locks, if_neg fun hand => hq hand.1]
  have hown : ∀ i, i ≠ fd → s.fs.locks p i = none := by
    intro i hi
    cases hm : s.fs.locks p i with
    | none => rfl
    | some m =>
      have hlock := (h.locks p i m).mp hm
      rw [hpc] at hlock
      cases hlock
  have hset : ∀ i m, (s.fs.setLock p fd (some flag)).locks p i = some m ↔ flag = m ∧ fd = i := by
    intro i m
    rw [Fs.setLock_locks]
    by_cases hi : i = fd
    · simp [hi]
    · simp [hi, Ne.symm hi, hown i hi]
  refine h.goto (fun _ q hq hqc => hq (h.alone q p hqc hcrit)) ?_ hkeep (fun i m => ?_) ?_ (fun q i m m' hq hm hm' => ?_) ?_
  · exact goto_forall (Q := fun _ pc => pc.critical = true → s.fs.names .locklocksfile ≠ none)
      (fun _ => h.guarded p hcrit) fun q _ => h.guarded q
  · rw [hset]
    simp [LockPc.lock?]
  · refine goto_forall (Q := fun _ pc => ∀ i, pc.fd? = some i → s.fs.names .locksfile = some i) (fun i hi => ?_)
      fun q _ => h.named q
    exact h.named p i (hpc ▸ hi)
  · obtain ⟨rfl, rfl⟩ := (hset i m).mp hm
    exact hothers q m' hq hm'
  · refine goto_forall (Q := fun _ pc => pc.foundUnlocked = true → _) (fun hfalse => ?_) fun q hq hqu => ?_
    · cases hfalse
    · rw [hnounlocked q hq] at hqu
      cases hqu

/-- The locks file is removed when nobody has a lock, so no process has it open that still counts on its name. -/
theorem Inv.remove (h : s.Inv) (hpc : s.pc p = .removing) : (s.goto p (s.fs.unlink .locksfile) .leaving).Inv := by
  have hcrit : (s.pc p).critical = true := by
    rw [hpc]
    rfl
  have hnolock : ∀ q i, s.fs.locks q i = none := h.unlocked p (by rw [hpc]; rfl)
  have hnofd : ∀ q i, q ≠ p → (s.pc q).fd? ≠ some i := by
    intro q i hq hfd
    cases hq' : s.pc q with
    | locking _ _ | unlinking _ _ | checking _ | closingChecked _ _ => exact absurd (h.alone q p (by rw [hq']; rfl) hcrit) hq
    | held flag fd =>
      have hlock := (h.locks q fd flag).mpr (by rw [hq']; rfl)
      rw [hnolock q fd] at hlock
      cases hlock
    | _ =>
      rw [hq'] at hfd
      cases hfd
  have hother : (s.fs.unlink .locksfile).names .locklocksfile = s.fs.names .locklocksfile := by simp
  refine h.goto_of_locks Fs.unlink_locks (fun _ q hq hqc => hq (h.alone q p hqc hcrit)) ?_ (by rw [hpc]; rfl) ?_
    fun _ => hnolock
  · rw [hother]
    exact goto_forall (Q := fun _ pc => pc.critical = true → s.fs.names .locklocksfile ≠ none)
      (fun _ => h.guarded p hcrit) fun q _ => h.guarded q
  · refine goto_forall (Q := fun _ pc => ∀ i, pc.fd? = some i → (s.fs.unlink .locksfile).names .locksfile = some i)
      (fun i hi => ?_) fun q hq i hi => absurd hi (hnofd q i hq)
    cases hi

theorem Inv.step (h : s.Inv) (hs : Step s s') : s'.Inv := by
  cases hs with
  | construct hpc | closeNew hpc | reclose hpc | reopenNone hpc _ =>
    exact h.keep (by rw [hpc]; rfl) (by rw [hpc]; rfl) (by simp [LockPc.fd?]) (by simp [LockPc.foundUnlocked])
  | create hpc hnone => exact h.enter hnone (by rw [hpc]; rfl) rfl rfl rfl
  | recreate hpc hnone => exact h.enter hnone (by rw [hpc]; rfl) rfl rfl rfl
  | openLocks hpc => exact h.openLocks hpc
  | setlkw hpc hfree => exact h.setlkw hpc hfree
  | unlinkNew hpc => exact h.leave (by rw [hpc]; rfl) rfl (by rw [hpc]; rfl) (by rw [hpc]; exact fun i hi => hi) rfl
  | destruct hpc => exact h.close (by rw [hpc]; rfl) (by rw [hpc]; rfl) rfl rfl (by simp [LockPc.foundUnlocked])
  | reopen hpc hname =>
    exact h.keep (by rw [hpc]; rfl) (by rw [hpc]; rfl) (fun i hi => by cases hi; exact hname) (by simp [LockPc.foundUnlocked])
  | @getlk p fd unlocked hpc hget =>
    have hname : s.fs.names .locksfile = some fd := h.named p fd (by rw [hpc]; rfl)
    refine h.keep (by rw [hpc]; rfl) (by rw [hpc]; rfl) (fun i hi => by cases hi; exact hname) fun hun q i => ?_
    -- a lock of another process would be on this file and in the way
    have hfree := hget.mp hun
    cases hlock : s.fs.locks q i with
    | none => rfl
    | some m =>
      obtain rfl : i = fd := Option.some.inj ((h.lock_named hlock).symm.trans hname)
      refine absurd ⟨q, m, ?_, hlock, fun hcomp => by cases hcomp.1⟩ hfree
      rintro rfl
      have := (h.locks q i m).mp hlock
      rw [hpc] at this
      cases this
  | @closeChecked p fd unlocked hpc =>
    refine h.close (by rw [hpc]; rfl) ?_ ?_ ?_ ?_ <;> cases unlocked <;>
      simp [hpc, LockPc.critical, LockPc.lock?, LockPc.fd?, LockPc.foundUnlocked]
  | remove hpc => exact h.remove hpc
  | leave hpc => exact h.leave (by rw [hpc]; rfl) rfl (by rw [hpc]; rfl) (by simp [LockPc.fd?]) rfl

theorem Reachable.inv (h : Reachable s) : s.Inv := by
  induction h with
  | initial hi => exact hi.inv
  | step _ hs ih => exact ih.step hs

/-! ### The promise -/

/-- The process is behind the constructor of its lock and before its destructor. -/
def Holds (s : LockState P) (p : P) (flag : WantLock) : Prop := ∃ fd, s.pc p = .held flag fd

omit [DecidableEq P] in
theorem Inv.holds_lock (h : s.Inv) {flag : WantLock} (hp : s.Holds p flag) :
    ∃ fd, s.fs.names .locksfile = some fd ∧ s.fs.locks p fd = some flag := by
  obtain ⟨fd, hpc⟩ := hp
  exact ⟨fd, h.named p fd (by rw [hpc]; rfl), (h.locks p fd flag).mpr (by rw [hpc]; rfl)⟩

/-- A holder of an exclusive lock is the only holder. -/
theorem Inv.holds_alone (h : s.Inv) (hp : s.Holds p .exclusive) {flag : WantLock} (hq : s.Holds q flag) : q = p := by
  obtain ⟨fd, hname, hlock⟩ := h.holds_lock hp
  obtain ⟨fd', hname', hlock'⟩ := h.holds_lock hq
  obtain rfl : fd = fd' := Option.some.inj (hname.symm.trans hname')
  by_contra hne
  exact absurd (h.compatible p q fd _ _ (Ne.symm hne) hlock hlock').1 (by decide)

/-- The name of the locks file goes only when no process has a lock on the file. -/
theorem Inv.removed_unlocked (h : s.Inv) (hs : Step s s') {fd : Nat} (hname : s.fs.names .locksfile = some fd)
    (hgone : s'.fs.names .locksfile ≠ some fd) (q : P) : s.fs.locks q fd = none := by
  cases hs with
  | @remove p hpc => exact h.unlocked p (by rw [hpc]; rfl) q fd
  | openLocks hpc =>
    rw [Fs.openCreat_of_some hname] at hgone
    exact absurd hname hgone
  | _ => exact absurd hname (by simpa using hgone)

/-- With no locks and nobody in the critical section, the constructor goes through. -/
theorem Reachable.constructed (h : Reachable s) (hpc : s.pc p = .idle) (hnone : s.fs.names .locklocksfile = none)
    (hlocks : ∀ q i, s.fs.locks q i = none) (flag : WantLock) : ∃ s', Reachable s' ∧ s'.Holds p flag := by
  have hconstruct : Step s (s.goto p s.fs (.creating flag)) := .construct hpc
  have hcreated := (h.step hconstruct).step (.create (by rw [goto_pc, if_pos rfl]) hnone)
  have hopened := (hcreated.step (.closeNew (by rw [goto_pc, if_pos rfl]))).step (.openLocks (by rw [goto_pc, if_pos rfl]))
  have hfree : ∀ fs : Fs LockName P, fs.locks = s.fs.locks → ∀ fd, ¬fs.Conflict p fd flag := by
    rintro fs hfs fd ⟨q, m, _, hm, _⟩
    rw [hfs, hlocks] at hm
    cases hm
  have hlocked := hopened.step (.setlkw (by rw [goto_pc, if_pos rfl]) (hfree _ (by simp) _))
  exact ⟨_, hlocked.step (.unlinkNew (by rw [goto_pc, if_pos rfl])), _, by rw [goto_pc, if_pos rfl]⟩

end LockState

/-- In every interleaving of any processes, a holder of an exclusive lock is the only holder, and the locks file is
    never unlinked while some process has a lock on it. -/
theorem lockfile_mutual_exclusion {P : Type} [DecidableEq P] {s : LockState P} (h : LockState.Reachable s) :
    (∀ p q flag, s.Holds p .exclusive → s.Holds q flag → q = p) ∧
      ∀ s' fd, LockState.Step s s' → s.fs.names .locksfile = some fd → s'.fs.names .locksfile ≠ some fd →
        ∀ q, s.fs.locks q fd = none :=
  ⟨fun _ _ _ hp hq => h.inv.holds_alone hp hq, fun _ _ hs hname hgone q => h.inv.removed_unlocked hs hname hgone q⟩

/-- One of two processes makes the locks file and has it for itself. -/
theorem lockfile_mutual_exclusion_sample : ∃ s : LockState Bool, s.Holds false .exclusive ∧
    ¬∃ flag, s.Holds true flag := by
  let start : LockState Bool := ⟨⟨fun _ => none, 0, fun _ _ => none⟩, fun _ => .idle⟩
  have hstart : LockState.Reachable start := .initial ⟨rfl, fun _ _ => rfl, fun _ => rfl⟩
  obtain ⟨s, hs, hholds⟩ := hstart.constructed (p := false) rfl rfl (fun _ _ => rfl) .exclusive
  refine ⟨s, hholds, ?_⟩
  rintro ⟨flag, hother⟩
  cases (lockfile_mutual_exclusion hs).1 false true flag hholds hother

end Nget
