import Nget.Lib.Posix

/-! `c_lockfile` in its variant for `fcntl` (`mylockfile.h`). A process is in its constructor, holds its lock, or
    is in its destructor; each state is the call of the file system that comes next. A call that fails in a way
    that the code ends the program for has no step. -/

namespace Nget
open Posix

/-- `WANT_SH_LOCK`, `WANT_EX_LOCK`. -/
abbrev WantLock := LockMode

/-- The two files beside the locked one. -/
inductive LockName where
  | locksfile
  | locklocksfile
deriving DecidableEq

/-- Where a process is, with the mode that it wants and the file behind its `fd`. -/
inductive LockPc where
  /-- No `c_lockfile`. -/
  | idle
  /-- The constructor: `open(locklocksfile, O_CREAT|O_EXCL)`, again until it succeeds. -/
  | creating (flag : WantLock)
  | closingNew (flag : WantLock)
  | opening (flag : WantLock)
  | locking (flag : WantLock) (fd : Nat)
  | unlinking (flag : WantLock) (fd : Nat)
  /-- The constructor has ended. -/
  | held (flag : WantLock) (fd : Nat)
  /-- The destructor, behind `close(fd)`. -/
  | recreating
  | reclosing
  | reopening
  | checking (fd : Nat)
  | closingChecked (fd : Nat) (unlocked : Bool)
  | removing
  | leaving
deriving DecidableEq

/-- The file system and where each process is. -/
structure LockState (P : Type) where
  fs : Fs LockName P
  pc : P → LockPc

namespace LockState
variable {P : Type} [DecidableEq P]

/-- A process goes on. -/
def goto (s : LockState P) (p : P) (fs : Fs LockName P) (pc : LockPc) : LockState P := ⟨fs, Function.update s.pc p pc⟩

/-- A call of one process. A call that waits, or is tried again after a second, has its step when it succeeds. -/
inductive Step : LockState P → LockState P → Prop where
  | construct {s : LockState P} {p : P} {flag : WantLock} : s.pc p = .idle → Step s (s.goto p s.fs (.creating flag))
  | create {s : LockState P} {p : P} {flag : WantLock} : s.pc p = .creating flag → s.fs.names .locklocksfile = none →
      Step s (s.goto p (s.fs.create .locklocksfile) (.closingNew flag))
  | closeNew {s : LockState P} {p : P} {flag : WantLock} : s.pc p = .closingNew flag → Step s (s.goto p s.fs (.opening flag))
  | openLocks {s : LockState P} {p : P} {flag : WantLock} : s.pc p = .opening flag →
      Step s (s.goto p (s.fs.openCreat .locksfile).2 (.locking flag (s.fs.openCreat .locksfile).1))
  | setlkw {s : LockState P} {p : P} {flag : WantLock} {fd : Nat} : s.pc p = .locking flag fd → ¬s.fs.Conflict p fd flag →
      Step s (s.goto p (s.fs.setLock p fd (some flag)) (.unlinking flag fd))
  | unlinkNew {s : LockState P} {p : P} {flag : WantLock} {fd : Nat} : s.pc p = .unlinking flag fd →
      Step s (s.goto p (s.fs.unlink .locklocksfile) (.held flag fd))
  | destruct {s : LockState P} {p : P} {flag : WantLock} {fd : Nat} : s.pc p = .held flag fd →
      Step s (s.goto p (s.fs.setLock p fd none) .recreating)
  | recreate {s : LockState P} {p : P} : s.pc p = .recreating → s.fs.names .locklocksfile = none →
      Step s (s.goto p (s.fs.create .locklocksfile) .reclosing)
  | reclose {s : LockState P} {p : P} : s.pc p = .reclosing → Step s (s.goto p s.fs .reopening)
  | reopen {s : LockState P} {p : P} {fd : Nat} : s.pc p = .reopening → s.fs.names .locksfile = some fd →
      Step s (s.goto p s.fs (.checking fd))
  | reopenNone {s : LockState P} {p : P} : s.pc p = .reopening → s.fs.names .locksfile = none → Step s (s.goto p s.fs .leaving)
  | getlk {s : LockState P} {p : P} {fd : Nat} {unlocked : Bool} : s.pc p = .checking fd →
      (unlocked = true ↔ ¬s.fs.Conflict p fd .exclusive) → Step s (s.goto p s.fs (.closingChecked fd unlocked))
  | closeChecked {s : LockState P} {p : P} {fd : Nat} {unlocked : Bool} : s.pc p = .closingChecked fd unlocked →
      Step s (s.goto p (s.fs.setLock p fd none) (if unlocked then .removing else .leaving))
  | remove {s : LockState P} {p : P} : s.pc p = .removing → Step s (s.goto p (s.fs.unlink .locksfile) .leaving)
  | leave {s : LockState P} {p : P} : s.pc p = .leaving → Step s (s.goto p (s.fs.unlink .locklocksfile) .idle)

/-- At the start there are no locks and no lock of the locks; a locks file may have stayed. -/
structure Initial (s : LockState P) : Prop where
  locklocks : s.fs.names .locklocksfile = none
  locks : ∀ p i, s.fs.locks p i = none
  pc : ∀ p, s.pc p = .idle

inductive Reachable : LockState P → Prop where
  | initial {s : LockState P} : s.Initial → Reachable s
  | step {s s' : LockState P} : Reachable s → Step s s' → Reachable s'

end LockState
end Nget
