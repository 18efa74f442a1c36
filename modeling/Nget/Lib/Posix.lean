import Mathlib.Logic.Function.Basic

/-! What several processes see of a file system: names of files, and advisory locks. A lock belongs to a
    process and a file, not to a name, and goes when the process closes the file. Each call is one step. -/

namespace Posix

inductive LockMode where
  | shared
  | exclusive
deriving DecidableEq

/-- Two processes can have these locks on one file. -/
def LockMode.Compatible (m m' : LockMode) : Prop := m = .shared ∧ m' = .shared

theorem LockMode.Compatible.symm {m m' : LockMode} (h : m.Compatible m') : m'.Compatible m := ⟨h.2, h.1⟩

/-- The files that names stand for, the first number that no file has had, and the locks of each process. -/
structure Fs (Name P : Type) where
  names : Name → Option Nat
  next : Nat
  locks : P → Nat → Option LockMode

namespace Fs
variable {Name P : Type}

section Names
variable [DecidableEq Name] (fs : Fs Name P)

/-- A file that a call creates under a name. -/
def create (n : Name) : Fs Name P := { fs with names := Function.update fs.names n (some fs.next), next := fs.next + 1 }

/-- `open` with `O_CREAT`: the file, and the file system with it. -/
def openCreat (n : Name) : Nat × Fs Name P :=
  match fs.names n with
  | some i => (i, fs)
  | none => (fs.next, fs.create n)

def unlink (n : Name) : Fs Name P := { fs with names := Function.update fs.names n none }

variable {fs} {n n' : Name} {i : Nat}

@[simp] theorem create_locks : (fs.create n).locks = fs.locks := rfl

@[simp] theorem unlink_locks : (fs.unlink n).locks = fs.locks := rfl

@[simp] theorem create_names : (fs.create n).names n' = if n' = n then some fs.next else fs.names n' :=
  Function.update_apply _ _ _ _

@[simp] theorem unlink_names : (fs.unlink n).names n' = if n' = n then none else fs.names n' := Function.update_apply _ _ _ _

/-- A file that is there is opened as it is. -/
theorem openCreat_of_some (h : fs.names n = some i) : fs.openCreat n = (i, fs) := by
  unfold openCreat
  rw [h]

theorem openCreat_of_none (h : fs.names n = none) : fs.openCreat n = (fs.next, fs.create n) := by
  unfold openCreat
  rw [h]

@[simp] theorem openCreat_locks : (fs.openCreat n).2.locks = fs.locks := by
  cases h : fs.names n with
  | some i => rw [openCreat_of_some h]
  | none => rw [openCreat_of_none h, create_locks]

end Names

section Locks
variable [DecidableEq P] (fs : Fs Name P)

/-- The process's lock on a file, or none. -/
def setLock (p : P) (i : Nat) (m : Option LockMode) : Fs Name P :=
  { fs with locks := Function.update fs.locks p (Function.update (fs.locks p) i m) }

/-- Some other process has a lock that this one cannot stand beside. -/
def Conflict (p : P) (i : Nat) (m : LockMode) : Prop := ∃ q m', q ≠ p ∧ fs.locks q i = some m' ∧ ¬m.Compatible m'

variable {fs} {p q : P} {i j : Nat} {m : Option LockMode}

@[simp] theorem setLock_names : (fs.setLock p i m).names = fs.names := rfl

@[simp] theorem setLock_locks : (fs.setLock p i m).locks q j = if q = p ∧ j = i then m else fs.locks q j := by
  unfold setLock
  by_cases hq : q = p
  · subst hq
    by_cases hj : j = i
    · subst hj
      simp
    · simp [hj]
  · simp [hq]

end Locks
end Fs
end Posix
