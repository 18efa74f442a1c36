import Nget.CacheFile
import Nget.Theorems.Lines
import Nget.Theorems.CacheInv

/-! What a cache text says: the records of its lines, each with a file's fields and references and a block
    of articles for every part, whoever's the articles are. `docRun` is the purpose of the reader without
    its pointers, counters and servers, and `readFiles_spec` says what the reader makes of the records: the
    files that have an article of a configured server, in their order. -/

namespace Nget
open CString NntpFileParts

/-- The fields of a file in a record. -/
structure RecordHead extends NntpFileBase where
  flags : UInt64
  tailoff : Int32
  update : Int64
deriving DecidableEq

/-- A file in a text: its fields, and its parts with all their articles, in the order of the lines. -/
structure Record where
  head : RecordHead
  blocks : List NntpPart
deriving DecidableEq

/-- Where a text is between two lines. -/
inductive DocPos where
  | file
  | references (head : RecordHead)
  | part (rec : Record)
  | article (rec : Record) (block : NntpPart)
deriving DecidableEq

/-- The place between two records. -/
def DocPos.isFile : DocPos → Bool
  | .file => true
  | _ => false

theorem DocPos.isFile_iff {pos : DocPos} : pos.isFile = true ↔ pos = .file := by
  cases pos <;> simp [isFile]

/-! ### The fields of a line -/

def lineHead (t : List Text) : RecordHead :=
  { req := atoi (t.getD 0 []), flags := atoul (t.getD 1 []), subject := t.getD 2 [], author := t.getD 3 [],
    partoff := atoi (t.getD 4 []), tailoff := atoi (t.getD 5 []), update := atotime (t.getD 6 []), references := [] }

def lineReference (buf : Text) : Text := if buf.head? = some '.' then buf.tail else buf

def linePart (t : List Text) : NntpPart := ⟨atoi (t.getD 0 []), [], atotime (t.getD 1 []), t.getD 2 []⟩

def lineArticle (group : Text) (t : List Text) : NntpServerArticle :=
  ⟨atoul (t.getD 0 []), group, atoul (t.getD 1 []), atoul (t.getD 2 []), atoul (t.getD 3 [])⟩

/-- One line: where the text is behind it, and the record that it ends. -/
def docTurn (group line : Text) : DocPos → DocPos × Option Record
  | .article rec block =>
    if line.head? = some '.' then (.part { rec with blocks := rec.blocks ++ [block] }, none)
    else
      match toks 4 line with
      | some t => (.article rec { block with articles := block.articles ++ [lineArticle group t] }, none)
      | none => (.article rec block, none)
  | .part rec =>
    if line.head? = some '.' then (.file, some rec)
    else
      match toks 3 line with
      | some t => (.article rec (linePart t), none)
      | none => (.part rec, none)
  | .file =>
    match toks 7 line with
    | some t => (.references (lineHead t), none)
    | none => (.file, none)
  | .references head =>
    if cstr (dropCr line) = ['.'] then (.part ⟨head, []⟩, none)
    else (.references { head with references := head.references ++ [lineReference (cstr (dropCr line))] }, none)

/-- The lines of a text from `pos` on: where they end, and their records. -/
def docRun (group : Text) : DocPos → List Text → DocPos × List Record
  | pos, [] => (pos, [])
  | pos, line :: lines =>
    let r := docRun group (docTurn group line pos).1 lines
    (r.1, (docTurn group line pos).2.toList ++ r.2)

/-! ### The file of a record -/

/-- The file without its parts. -/
def RecordHead.file (head : RecordHead) : NntpFile :=
  { head.toNntpFileBase with flags := head.flags, tailoff := head.tailoff, update := head.update }

section
variable (hasserver : UInt64 → Bool)

/-- A block with the articles of the configured servers. -/
def keep (block : NntpPart) : NntpPart := { block with articles := block.articles.filter fun sa => hasserver sa.serverid }

/-- A block is counted when it comes, and its part is dropped when it has no article of a configured server. -/
def addBlock (nf : NntpFile) (block : NntpPart) : NntpFile :=
  if (keep hasserver block).articles.isEmpty then { nf.addpart (keep hasserver block) with parts := nf.parts }
  else nf.addpart (keep hasserver block)

def Record.file (rec : Record) : NntpFile := rec.blocks.foldl (addBlock hasserver) rec.head.file

end

section
variable {hasserver : UInt64 → Bool} {now : Int64} {base : UInt64} {r : CacheReader} {rec : Record}
    {nf : NntpFile} {block : NntpPart}

theorem addBlock_ascending (h : Ascending nf.parts) : Ascending (addBlock hasserver nf block).parts := by
  unfold addBlock
  split
  · exact h
  · exact ascending_addpart h

theorem foldl_addBlock_ascending : ∀ (blocks : List NntpPart) (nf : NntpFile), Ascending nf.parts →
    Ascending (blocks.foldl (addBlock hasserver) nf).parts
  | [], _, h => h
  | _ :: blocks, _, h => foldl_addBlock_ascending blocks _ (addBlock_ascending h)

/-- The block has an article of a configured server. -/
def Served (hasserver : UInt64 → Bool) (block : NntpPart) : Prop := ∃ sa ∈ block.articles, hasserver sa.serverid = true

instance : Decidable (Served hasserver block) := inferInstanceAs (Decidable (∃ sa ∈ block.articles, _))

theorem keep_isEmpty_iff : (keep hasserver block).articles.isEmpty = true ↔ ¬Served hasserver block := by
  simp [keep, Served]

theorem addBlock_toNntpFileBase : (addBlock hasserver nf block).toNntpFileBase = nf.toNntpFileBase := by
  unfold addBlock
  split <;> rfl

/-- The blocks add their parts in some place, those that have an article of a configured server. -/
theorem foldl_addBlock_parts : ∀ (blocks : List NntpPart) (nf : NntpFile), Ascending nf.parts →
    (blocks.foldl (addBlock hasserver) nf).parts.Perm
      ((blocks.filter fun b => decide (Served hasserver b)).map (keep hasserver) ++ nf.parts)
  | [], _, _ => by simp
  | block :: blocks, nf, h => by
    refine (foldl_addBlock_parts blocks (addBlock hasserver nf block) (addBlock_ascending h)).trans ?_
    unfold addBlock
    by_cases hb : Served hasserver block
    · rw [if_neg fun h => keep_isEmpty_iff.mp h hb, List.filter_cons_of_pos (by simpa using hb), List.map_cons,
        NntpFile.addpart_parts]
      exact ((addpart_perm h).append_left _).trans List.perm_middle
    · rw [if_pos (keep_isEmpty_iff.mpr hb), List.filter_cons_of_neg (by simpa using hb)]

/-- And they count, whether their parts stay or not. -/
theorem foldl_addBlock_haveNum : ∀ (blocks : List NntpPart) (nf : NntpFile), (blocks.foldl (addBlock hasserver) nf).haveNum =
    nf.haveNum + NntpFile.countParts nf.req blocks
  | [], _ => by simp [NntpFile.countParts]
  | block :: blocks, nf => by
    have hnum : (addBlock hasserver nf block).haveNum = nf.haveNum + if countPartnum block.partnum nf.req then 1 else 0 := by
      unfold addBlock
      split <;> exact NntpFile.addpart_haveNum
    rw [List.foldl_cons, foldl_addBlock_haveNum blocks, hnum, addBlock_toNntpFileBase]
    simp only [NntpFile.countParts, List.countP_cons]
    split <;> push_cast <;> ring

theorem foldl_addBlock_toNntpFileBase : ∀ (blocks : List NntpPart) (nf : NntpFile),
    (blocks.foldl (addBlock hasserver) nf).toNntpFileBase = nf.toNntpFileBase
  | [], _ => rfl
  | _ :: blocks, _ => (foldl_addBlock_toNntpFileBase blocks _).trans addBlock_toNntpFileBase

theorem Record.file_toNntpFileBase : (rec.file hasserver).toNntpFileBase = rec.head.toNntpFileBase :=
  foldl_addBlock_toNntpFileBase _ _

theorem Record.file_parts : (rec.file hasserver).parts.Perm
    ((rec.blocks.filter fun b => decide (Served hasserver b)).map (keep hasserver)) := by
  have := @foldl_addBlock_parts hasserver rec.blocks rec.head.file List.Pairwise.nil
  rwa [show rec.head.file.parts = [] from rfl, List.append_nil] at this

theorem Record.file_haveNum : (rec.file hasserver).haveNum = NntpFile.countParts rec.head.req rec.blocks := by
  have := @foldl_addBlock_haveNum hasserver rec.blocks rec.head.file
  rwa [show rec.head.file.haveNum = 0 from rfl, zero_add] at this

theorem Record.ascending : Ascending (rec.file hasserver).parts := foldl_addBlock_ascending _ _ List.Pairwise.nil

theorem Record.file_append : Record.file hasserver { rec with blocks := rec.blocks ++ [block] } =
    addBlock hasserver (rec.file hasserver) block := by
  simp [Record.file]

/-! ### The articles of a block -/

theorem keep_article {sa : NntpServerArticle} (hsa : hasserver sa.serverid = true) :
    keep hasserver { block with articles := block.articles ++ [sa] } =
      { keep hasserver block with articles := (keep hasserver block).articles ++ [sa] } := by
  simp [keep, List.filter_append, hsa]

theorem keep_dead {sa : NntpServerArticle} (hsa : hasserver sa.serverid = false) :
    keep hasserver { block with articles := block.articles ++ [sa] } = keep hasserver block := by
  simp [keep, List.filter_append, hsa]

/-- An article of the part that was added last. -/
theorem addpart_article {p : NntpPart} {sa : NntpServerArticle} (h : Ascending nf.parts) :
    { nf.addpart p with
      parts := (nf.addpart p).parts.modify (lowerBound nf.parts p.partnum) fun p =>
        { p with articles := p.articles ++ [sa] } } =
      nf.addpart { p with articles := p.articles ++ [sa] } := by
  rw [NntpFile.addpart_parts, modify_addpart h rfl]
  rfl

/-! ### Dropping the part that got no article -/

/-- The reader but for its place, its counts and the record of message-ids. -/
structure CacheReader.SameText (r r' : CacheReader) : Prop where
  group : r'.group = r.group
  totalnum : r'.totalnum = r.totalnum
  cacheSortver : r'.cacheSortver = r.cacheSortver

theorem CacheReader.SameText.trans {r₁ r₂ r₃ : CacheReader} (h : r₁.SameText r₂) (h' : r₂.SameText r₃) : r₁.SameText r₃ :=
  ⟨h'.group.trans h.group, h'.totalnum.trans h.totalnum, h'.cacheSortver.trans h.cacheSortver⟩

/-- The part that `np` points to, if it does, has an article. -/
def PointsToArticles (nf : NntpFile) (np : Option Nat) : Prop := ∀ p, np.bind (nf.parts[·]?) = some p → p.articles ≠ []

theorem dropEmptyPart_of_articles {np : Option Nat} (h : PointsToArticles nf np) :
    CacheReader.dropEmptyPart now r nf np = (r, nf, np) := by
  unfold CacheReader.dropEmptyPart
  split
  · next p hp => rw [if_neg (by simpa using h p hp)]
  · rfl

/-- When the next line comes in the part mode, the last block has been added as it should. -/
theorem dropEmptyPart_addpart (h : Ascending nf.parts)
    (hcount : r.count = base + UInt64.ofNat (nf.parts.length + 1)) :
    ∃ d, CacheReader.dropEmptyPart now r (nf.addpart (keep hasserver block)) (some (lowerBound nf.parts block.partnum)) = d ∧
      d.2.1 = addBlock hasserver nf block ∧ d.1.count = base + UInt64.ofNat d.2.1.parts.length ∧
      d.1.f = r.f ∧ r.SameText d.1 ∧ PointsToArticles d.2.1 d.2.2 := by
  have hget : (NntpFileParts.addpart nf.parts (keep hasserver block))[lowerBound nf.parts block.partnum]? =
      some (keep hasserver block) := getElem?_addpart h
  refine ⟨_, rfl, ?_⟩
  unfold CacheReader.dropEmptyPart addBlock
  simp only [Option.bind_some, NntpFile.addpart_parts, hget]
  split
  · next hempty =>
    refine ⟨?_, ?_, rfl, ⟨rfl, rfl, rfl⟩, fun p hp => by cases hp⟩
    · rw [removepart_addpart h]
    · rw [removepart_addpart h, hcount, UInt64.ofNat_add]
      show base + (UInt64.ofNat nf.parts.length + 1) - 1 = base + UInt64.ofNat nf.parts.length
      grind
  · next hempty =>
    refine ⟨rfl, ?_, rfl, ⟨rfl, rfl, rfl⟩, fun p hp => ?_⟩
    · rw [NntpFile.addpart_parts, (addpart_perm h).length_eq, List.length_cons, hcount]
    · simp only [Option.bind_some, NntpFile.addpart_parts, hget, Option.some.injEq] at hp
      rw [← hp]
      simpa using hempty

end
end Nget
