import Nget.CString
import Nget.Lib.DirTree

/-! Paths (`path.cc`), and the making of missing directories (`makedirs` in `nget.cc`), with `/` as the only
    separator. Directories are those of a tree without links; `mkdir` also fails where it is not permitted. -/

namespace Nget
open CString

def isPathsep (c : Char) : Bool := c = '/'

def pathAppend (a b : Text) : Text :=
  match a.getLast? with
  | none => b
  | some c => if isPathsep c then a ++ b else a ++ '/' :: b

/-- The loop of `path_split`, over the characters of `head` from the last one on. -/
def pathSplitLoop : Text → Text → Text × Text
  | [], tail => ([], tail)
  | c :: head, tail =>
    if isPathsep c then
      let tail := if head.isEmpty then c :: tail else tail
      if tail.isEmpty then pathSplitLoop head tail else (head.reverse, tail)
    else pathSplitLoop head (c :: tail)

/-- `path_split`: what is left in `head`, and the tail. -/
def pathSplit (head : Text) : Text × Text := pathSplitLoop head.reverse []

example : pathSplit "/a//b/".toList = ("/a/".toList, "b".toList) ∧ pathSplit "/a".toList = ([], "/a".toList) := by decide

/-! ### The file system -/

/-- The names of a path. -/
def pathNames (p : Text) : List Text := (split '/' p).filter (· ≠ [])

def isAbspath (p : Text) : Bool := p.head? = some '/'

/-- The directories, the working directory, and where a directory may be made. -/
structure Dirs where
  tree : DirTree Text
  cwd : List Text
  cwd_mem : cwd ∈ tree.dirs
  permitted : List Text → Bool

namespace Dirs
variable (d : Dirs)

/-- The directory that a path starts from. -/
def start (p : Text) : List Text := if isAbspath p then [] else d.cwd

/-- Names are followed one by one; `.` stays and `..` goes up. -/
def resolve (at' : List Text) : List Text → Option (List Text)
  | [] => some at'
  | c :: cs =>
    if c = ".".toList then resolve at' cs
    else if c = "..".toList then resolve at'.dropLast cs
    else if d.tree.has (at' ++ [c]) then resolve (at' ++ [c]) cs else none

/-- `direxists`: `chdir` succeeds. It does not with an empty path. -/
def direxists (p : Text) : Bool := p ≠ [] && (d.resolve (d.start p) (pathNames p)).isSome

/-- `mkdir`: the file system in which the directory is made, which must be a new one in a directory. -/
def mkdir (p : Text) : Option Dirs :=
  match (pathNames p).getLast? with
  | none => none
  | some c =>
    match d.resolve (d.start p) (pathNames p).dropLast with
    | none => none
    | some q =>
      if c = ".".toList || c = "..".toList || d.tree.has (q ++ [c]) || !d.permitted (q ++ [c]) then none
      else
        some { d with
          tree := d.tree.add q c
          cwd_mem := by
            unfold DirTree.add
            split
            · exact List.mem_append_left _ d.cwd_mem
            · exact d.cwd_mem }

end Dirs

/-! ### The two loops -/

/-- The loop that splits a path until nothing is left of it or `stop` holds, for so many rounds: what is left,
    and the tails. -/
def splitLoop (stop : Text → Bool) : Nat → Text → List Text → Option (Text × List Text)
  | 0, _, _ => none
  | rounds + 1, head, parts =>
    if !head.isEmpty && !stop head then splitLoop stop rounds (pathSplit head).1 ((pathSplit head).2 :: parts)
    else some (head, parts)

/-- The second loop of `makedirs`: what it returns, the calls of `mkdir`, and the directories in the end. -/
def createLoop (d : Dirs) (head : Text) : List Text → List Text → Int × List Text × Dirs
  | [], calls => (0, calls, d)
  | part :: parts, calls =>
    match d.mkdir (pathAppend head part) with
    | none => (-1, calls ++ [pathAppend head part], d)
    | some d => createLoop d (pathAppend head part) parts (calls ++ [pathAppend head part])

def makedirs (rounds : Nat) (d : Dirs) (dir : Text) : Option (Int × List Text × Dirs) :=
  (splitLoop d.direxists rounds dir []).map fun (head, parts) => createLoop d head parts []

def countLoop (d : Dirs) : Nat → Text → Nat → Option Nat
  | 0, _, _ => none
  | rounds + 1, head, count =>
    if !head.isEmpty && !d.direxists head then countLoop d rounds (pathSplit head).1 (count + 1) else some count

def missingPathTailCount (rounds : Nat) (d : Dirs) (dir : Text) : Option Nat := countLoop d rounds dir 0

end Nget
