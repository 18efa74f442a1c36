import Nget.CString

/-! The records of the header cache (`cache.h`): files, the parts of a file in the order of their numbers,
    the articles that servers hold of a part, and the header line that a new one comes from. -/

namespace Nget

/-- `c_nntp_file_base`: what makes two messages parts of one file. -/
structure NntpFileBase where
  req : Int32
  partoff : Int32
  author : Text
  subject : Text
  references : List Text
deriving DecidableEq, Inhabited

namespace NntpFileBase

/-- `operator<`; strings and vectors of strings compare lexicographically. -/
def lt (a b : NntpFileBase) : Bool :=
  if a.req < b.req then true
  else if b.req < a.req then false
  else if a.partoff < b.partoff then true
  else if b.partoff < a.partoff then false
  else if a.author < b.author then true
  else if b.author < a.author then false
  else if a.subject < b.subject then true
  else if b.subject < a.subject then false
  else a.references < b.references

end NntpFileBase

/-- `c_nntp_header`: one line of an overview. `group` stands for the group that the pointer is to. -/
structure NntpHeader extends NntpFileBase where
  serverid : UInt64
  group : Text
  partnum : Int32
  tailoff : Int32
  articlenum : UInt64
  date : Int64
  bytes : UInt64
  lines : UInt64
  messageid : Text
deriving DecidableEq, Inhabited

/-- `c_nntp_server_article`. -/
structure NntpServerArticle where
  serverid : UInt64
  group : Text
  articlenum : UInt64
  bytes : UInt64
  lines : UInt64
deriving DecidableEq, Inhabited

/-- `c_nntp_part`. -/
structure NntpPart where
  partnum : Int32
  articles : List NntpServerArticle
  date : Int64
  messageid : Text
deriving DecidableEq, Inhabited

/-- The article of a header line, as `addserverarticle` makes it. -/
def NntpServerArticle.ofHeader (h : NntpHeader) : NntpServerArticle :=
  ⟨h.serverid, h.group, h.articlenum, h.bytes, h.lines⟩

namespace NntpPart

def addserverarticle (p : NntpPart) (h : NntpHeader) : NntpPart :=
  { p with articles := p.articles ++ [.ofHeader h] }

/-- `c_nntp_part(c_nntp_header *h)`. -/
def ofHeader (h : NntpHeader) : NntpPart := addserverarticle ⟨h.partnum, [], h.date, h.messageid⟩ h

end NntpPart

/-- `count_partnum`: the part number counts for a file of `req` parts. -/
def countPartnum (partnum req : Int32) : Bool :=
  if 0 < req then 0 < partnum && partnum ≤ req else partnum = req

/-! ### The parts of a file, `c_nntp_file_parts` -/

namespace NntpFileParts

/-- The loop of `lower_bound`, over the `len` parts from `first` on. Each round at least halves `len`. -/
def lowerBoundLoop (parts : List NntpPart) (partnum : Int32) : Nat → Nat → Nat → Nat
  | 0, first, _ => first
  | fuel + 1, first, len =>
    if 0 < len then
      let half := len / 2
      match parts[first + half]? with
      | some middle =>
        if middle.partnum < partnum then lowerBoundLoop parts partnum fuel (first + half + 1) (len - half - 1)
        else lowerBoundLoop parts partnum fuel first half
      | none => first
    else first

/-- The index of the first part whose number is not below `partnum`. -/
def lowerBound (parts : List NntpPart) (partnum : Int32) : Nat :=
  lowerBoundLoop parts partnum parts.length 0 parts.length

def haspart (parts : List NntpPart) (partnum : Int32) : Bool :=
  match parts[lowerBound parts partnum]? with
  | some p => p.partnum = partnum
  | none => false

def part (parts : List NntpPart) (partnum : Int32) : Option NntpPart :=
  match parts[lowerBound parts partnum]? with
  | some p => if p.partnum = partnum then some p else none
  | none => none

def addpart (parts : List NntpPart) (p : NntpPart) : List NntpPart := parts.insertIdx (lowerBound parts p.partnum) p

def removepart (parts : List NntpPart) (partnum : Int32) : List NntpPart :=
  match part parts partnum with
  | some _ => parts.eraseIdx (lowerBound parts partnum)
  | none => parts

end NntpFileParts

/-- `c_nntp_file`. The source calls the count of its parts `have`. -/
structure NntpFile extends NntpFileBase where
  parts : List NntpPart := []
  haveNum : Int := 0
  flags : UInt64 := 0
  tailoff : Int32
  update : Int64
deriving DecidableEq, Inhabited

namespace NntpFile

def addpart (f : NntpFile) (p : NntpPart) : NntpFile :=
  { f with
    parts := NntpFileParts.addpart f.parts p
    haveNum := if countPartnum p.partnum f.req then f.haveNum + 1 else f.haveNum }

def addnewpart (f : NntpFile) (p : NntpPart) (now : Int64) : NntpFile := ({ f with update := now }).addpart p

/-- The articles put at the end of the file's part `mp`. -/
def pushArticles (f : NntpFile) (mp : NntpPart) (sas : List NntpServerArticle) : NntpFile :=
  { f with parts := f.parts.set (NntpFileParts.lowerBound f.parts mp.partnum) { mp with articles := mp.articles ++ sas } }

/-- `c_nntp_file(c_nntp_header *h)`. -/
def ofHeader (h : NntpHeader) : NntpFile := { h.toNntpFileBase with tailoff := h.tailoff, update := 0 }

/-- The message-id of the first part; the source asserts that there is one. -/
def bamid (f : NntpFile) : Text := (f.parts.head?.map (·.messageid)).getD []

def badate (f : NntpFile) : Int64 := (f.parts.head?.map (·.date)).getD 0

/-- The text that `getfileid` feeds to its checksum. -/
def fileidText (f : NntpFile) : Text :=
  f.subject ++ f.author ++ f.references.flatten ++ if f.req ≤ 0 then f.bamid else []

def getfileid (checksum : Text → Nat) (f : NntpFile) : Nat := checksum f.fileidText

/-- The sum that `bytes` and `lines` are of the parts. -/
def sumParts (g : NntpPart → UInt64) (f : NntpFile) : UInt64 := f.parts.foldl (fun b p => b + g p) 0

def isAReply (f : NntpFile) : Bool :=
  !f.references.isEmpty ||
    match f.subject with
    | a :: b :: ':' :: ' ' :: _ => a.toLower = 'r' && b.toLower = 'e'
    | _ => false

section
variable (lines : NntpPart → UInt64)

def maybeATextreply (f : NntpFile) : Bool := f.haveNum ≤ 1 && f.isAReply && f.sumParts lines < 1000

def maybeAZerofile (f : NntpFile) : Bool := f.req = 0 && 0 ≤ f.partoff && f.haveNum = 1

def maybeATextpost (f : NntpFile) : Bool := f.maybeAZerofile || f.maybeATextreply lines

def iscomplete (f : NntpFile) : Bool := f.req.toInt ≤ f.haveNum || f.maybeATextreply lines

end
end NntpFile
end Nget
