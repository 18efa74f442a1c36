import Nget.Theorems.CacheLoad

/-! Saving and loading. The lines that a cache is saved as are read back one by one: a line of fields gives its
    fields, a list of lines up to its dot gives the list. A text that is cut off anywhere has lines that
    `CutLines` relates to those of the whole text, so it has the first of its records and no others. -/

namespace Nget
open CString NntpFileParts CacheReader

/-- A text that can stand in a field. -/
def Clean (s : Text) : Prop := ∀ c ∈ s, c ≠ '\t' ∧ c ≠ '\r' ∧ c ≠ '\n' ∧ c ≠ nul

instance : DecidablePred Clean := fun s => List.decidableBAll _ s

/-- A character of a number is none of those that a field cannot have. -/
theorem clean_digit {c : Char} (hc : c.isDigit = true) : c ≠ '\t' ∧ c ≠ '\r' ∧ c ≠ '\n' ∧ c ≠ nul := by
  refine ⟨?_, ?_, ?_, ?_⟩ <;> (rintro rfl; exact absurd hc (by decide))

theorem clean_printUlong (n : UInt64) : Clean (printUlong n) := fun _ hc => clean_digit (isDigit_of_mem_toDigits hc)

theorem clean_printTime (t : Int64) : Clean (printTime t) := clean_printUlong _

theorem clean_printInt (n : Int32) : Clean (printInt n) := by
  intro c hc
  unfold printInt at hc
  split at hc
  · rcases List.mem_cons.mp hc with rfl | hc
    · decide
    · exact clean_digit (isDigit_of_mem_toDigits hc)
  · exact clean_digit (isDigit_of_mem_toDigits hc)

theorem Clean.cstr {s : Text} (h : Clean s) : CString.cstr s = s := cstr_of_not_mem fun hm => (h _ hm).2.2.2 rfl

theorem Clean.dropCr {s : Text} (h : Clean s) : dropCr s = s := List.filter_eq_self.mpr fun c hc => by simpa using (h c hc).2.1

theorem Clean.newline {s : Text} (h : Clean s) : '\n' ∉ s := fun hm => (h _ hm).2.2.1 rfl

theorem clean_pair {s t : Text} (hs : Clean s) (ht : Clean t) : ∀ u ∈ [s, t], Clean u := by
  intro u hu
  rcases List.mem_pair.mp hu with rfl | rfl
  · exact hs
  · exact ht

/-! ### The lines -/

theorem bufLines_putLines_append {f : Text} : ∀ {lines : List Text}, (∀ line ∈ lines, '\n' ∉ line) →
    bufLines (NntpCache.putLines lines ++ f) = lines ++ bufLines f
  | [], _ => rfl
  | line :: lines, h => by
    have hput : NntpCache.putLines (line :: lines) ++ f = line ++ '\n' :: (NntpCache.putLines lines ++ f) := by
      simp [NntpCache.putLines]
    rw [hput, bufLines_append (h line List.mem_cons_self),
      bufLines_putLines_append fun l hl => h l (List.mem_cons_of_mem _ hl), List.cons_append]

theorem bufLines_putLines {lines : List Text} (h : ∀ line ∈ lines, '\n' ∉ line) :
    bufLines (NntpCache.putLines lines) = lines := by
  have hlines := @bufLines_putLines_append [] lines h
  rwa [List.append_nil, bufLines, List.append_nil] at hlines

/-- Fields that are joined by tabs are the tokens of their line. -/
theorem tokens_joinWith {ts : List Text} (hne : ts ≠ []) (hclean : ∀ t ∈ ts, Clean t) : tokens (joinWith '\t' ts) = ts := by
  have hcr : dropCr (joinWith '\t' ts) = joinWith '\t' ts := List.filter_eq_self.mpr fun c hc => by
    rcases mem_joinWith hc with rfl | ⟨t, ht, hc⟩
    · decide
    · simpa using (hclean t ht c hc).2.1
  unfold tokens
  rw [hcr, split_joinWith hne fun t ht hm => (hclean t ht _ hm).1 rfl]

theorem map_cstr_clean {ts : List Text} (hclean : ∀ t ∈ ts, Clean t) : ts.map cstr = ts :=
  (List.map_congr_left fun t ht => (hclean t ht).cstr).trans (List.map_id' ts)

theorem toks_joinWith {max : Nat} {ts : List Text} (hne : ts ≠ []) (hlen : ts.length = max) (hclean : ∀ t ∈ ts, Clean t) :
    toks max (joinWith '\t' ts) = some ts := by
  unfold toks
  rw [tokens_joinWith hne hclean, if_pos hlen, map_cstr_clean hclean]

theorem newline_joinWith {ts : List Text} (hclean : ∀ t ∈ ts, Clean t) : '\n' ∉ joinWith '\t' ts := fun hm => by
  rcases mem_joinWith hm with h | ⟨t, ht, hm⟩
  · exact absurd h (by decide)
  · exact (hclean t ht).newline hm

/-- A line whose first field is a number does not start with a dot. -/
theorem head?_joinWith {sep : Char} {t : Text} {ts : List Text} (ht : t ≠ []) : (joinWith sep (t :: ts)).head? = t.head? := by
  cases ts with
  | nil => rfl
  | cons u ts => exact List.head?_append_of_ne_nil _ ht

theorem head?_printUlong (n : UInt64) : printUlong n ≠ [] ∧ (printUlong n).head? ≠ some '.' := by
  obtain ⟨c, cs, hcs, hc⟩ := toDigits_eq_cons n.toNat
  unfold printUlong
  rw [hcs]
  refine ⟨by simp, ?_⟩
  rintro ⟨rfl⟩
  exact absurd hc (by decide)

theorem head?_printInt (n : Int32) : printInt n ≠ [] ∧ (printInt n).head? ≠ some '.' := by
  unfold printInt
  split
  · exact ⟨by simp, by simp⟩
  · obtain ⟨c, cs, hcs, hc⟩ := toDigits_eq_cons n.toInt.natAbs
    rw [hcs]
    refine ⟨by simp, ?_⟩
    rintro ⟨rfl⟩
    exact absurd hc (by decide)

/-! ### What the lines of a cache say -/

/-- The file with its articles in another group. -/
def NntpFile.regroup (group : Text) (nf : NntpFile) : NntpFile :=
  { nf with parts := nf.parts.map fun p => { p with articles := p.articles.map fun sa => { sa with group } } }

/-- The record that a file is saved as. -/
def Record.ofFile (group : Text) (nf : NntpFile) : Record :=
  ⟨{ nf.toNntpFileBase with flags := nf.flags, tailoff := nf.tailoff, update := nf.update }, (nf.regroup group).parts⟩

/-- The file's strings can stand in their fields. -/
structure NntpFile.Savable (nf : NntpFile) : Prop where
  subject : Clean nf.subject
  author : Clean nf.author
  references : ∀ ri ∈ nf.references, Clean ri
  messageid : ∀ p ∈ nf.parts, Clean p.messageid

theorem atoul_print (n : UInt64) : atoul (printUlong n) = n := by
  simpa using @atoul_printUlong [] n (by simp)

section
variable {group : Text}

theorem docRun_append : ∀ (xs ys : List Text) (pos : DocPos), docRun group pos (xs ++ ys) =
    ((docRun group (docRun group pos xs).1 ys).1, (docRun group pos xs).2 ++ (docRun group (docRun group pos xs).1 ys).2)
  | [], _, _ => rfl
  | x :: xs, ys, pos => by
    rw [List.cons_append, docRun, docRun, docRun_append xs ys]
    simp

/-- A line that ends no record. -/
theorem docRun_cons {line : Text} {lines : List Text} {pos pos' : DocPos} (h : docTurn group line pos = (pos', none)) :
    docRun group pos (line :: lines) = docRun group pos' lines := by
  rw [docRun, h]
  rfl

theorem docTurn_articleLine {rec : Record} {block : NntpPart} (sa : NntpServerArticle) :
    docTurn group (NntpCache.articleLine sa) (.article rec block) =
      (.article rec { block with articles := block.articles ++ [{ sa with group }] }, none) := by
  have htoks : toks 4 (NntpCache.articleLine sa) =
      some [printUlong sa.serverid, printUlong sa.articlenum, printUlong sa.bytes, printUlong sa.lines] :=
    toks_joinWith (by simp) rfl (by simp [clean_printUlong])
  have hdot : (NntpCache.articleLine sa).head? ≠ some '.' := by
    unfold NntpCache.articleLine
    rw [head?_joinWith (head?_printUlong _).1]
    exact (head?_printUlong _).2
  unfold docTurn
  rw [htoks]
  dsimp only
  rw [if_neg hdot]
  simp [lineArticle, atoul_print]

theorem docRun_articles {rec : Record} : ∀ (sas : List NntpServerArticle) (block : NntpPart),
    docRun group (.article rec block) (sas.map NntpCache.articleLine) =
      (.article rec { block with articles := block.articles ++ sas.map fun sa => { sa with group } }, [])
  | [], _ => by simp [docRun]
  | sa :: sas, block => by
    rw [List.map_cons, docRun_cons (docTurn_articleLine sa), docRun_articles sas]
    simp

theorem docTurn_part {rec : Record} {np : NntpPart} (h : Clean np.messageid) :
    docTurn group (joinWith '\t' [printInt np.partnum, printTime np.date, CString.cstr np.messageid]) (.part rec) =
      (.article rec ⟨np.partnum, [], np.date, np.messageid⟩, none) := by
  have htoks : toks 3 (joinWith '\t' [printInt np.partnum, printTime np.date, CString.cstr np.messageid]) =
      some [printInt np.partnum, printTime np.date, np.messageid] := by
    rw [h.cstr]
    exact toks_joinWith (by simp) rfl (by simp [clean_printInt, clean_printTime, h])
  have hdot : (joinWith '\t' [printInt np.partnum, printTime np.date, CString.cstr np.messageid]).head? ≠ some '.' := by
    rw [head?_joinWith (head?_printInt _).1]
    exact (head?_printInt _).2
  unfold docTurn
  rw [htoks]
  dsimp only
  rw [if_neg hdot]
  simp [linePart, atoi_printInt, atotime_printTime]

theorem docRun_partLines {rec : Record} {np : NntpPart} (h : Clean np.messageid) :
    docRun group (.part rec) (NntpCache.partLines np) =
      (.part { rec with blocks :=
        rec.blocks ++ [{ np with articles := np.articles.map fun sa => { sa with group } }] }, []) := by
  unfold NntpCache.partLines
  rw [docRun_cons (docTurn_part h), docRun_append, docRun_articles]
  simp [docRun, docTurn]

theorem docRun_parts : ∀ (nps : List NntpPart) (rec : Record), (∀ np ∈ nps, Clean np.messageid) →
    docRun group (.part rec) (nps.flatMap NntpCache.partLines) =
      (.part { rec with blocks := rec.blocks ++ nps.map fun np =>
        { np with articles := np.articles.map fun sa => { sa with group } } }, [])
  | [], _, _ => by simp [docRun]
  | np :: nps, rec, h => by
    rw [List.flatMap_cons, docRun_append, docRun_partLines (h np (by simp))]
    dsimp only
    rw [docRun_parts nps _ fun p hp => h p (by simp [hp])]
    simp

theorem clean_referenceLine {ri : Text} (h : Clean ri) : Clean (NntpCache.referenceLine ri) := by
  unfold NntpCache.referenceLine
  rw [h.cstr]
  split
  · intro c hc
    rcases List.mem_cons.mp hc with rfl | hc
    · decide
    · exact h c hc
  · exact h

/-- The dot that is put before a reference is taken off again, and no reference is taken for the end of them. -/
theorem docTurn_referenceLine {head : RecordHead} {ri : Text} (h : Clean ri) :
    docTurn group (NntpCache.referenceLine ri) (.references head) =
      (.references { head with references := head.references ++ [ri] }, none) := by
  have hline := clean_referenceLine h
  unfold docTurn
  dsimp only
  rw [hline.dropCr, hline.cstr]
  unfold NntpCache.referenceLine
  rw [h.cstr]
  split
  · next hdot =>
    obtain ⟨tail, rfl⟩ := List.head?_eq_some_iff.mp hdot
    rw [if_neg (by simp)]
    rfl
  · next hdot =>
    rw [if_neg (by rintro rfl; exact hdot rfl), lineReference, if_neg hdot]

theorem docRun_references : ∀ (ris : List Text) (head : RecordHead), (∀ ri ∈ ris, Clean ri) →
    docRun group (.references head) (ris.map NntpCache.referenceLine) =
      (.references { head with references := head.references ++ ris }, [])
  | [], _, _ => by simp [docRun]
  | ri :: ris, head, h => by
    rw [List.map_cons, docRun_cons (docTurn_referenceLine (h ri (by simp))),
      docRun_references ris _ fun x hx => h x (by simp [hx])]
    simp

theorem docRun_fileLines {nf : NntpFile} (h : nf.Savable) :
    docRun group .file (NntpCache.fileLines nf) = (.file, [Record.ofFile group nf]) := by
  have htoks : toks 7 (joinWith '\t' [printInt nf.req, printUlong nf.flags, CString.cstr nf.subject, CString.cstr nf.author,
      printInt nf.partoff, printInt nf.tailoff, printTime nf.update]) =
      some [printInt nf.req, printUlong nf.flags, nf.subject, nf.author, printInt nf.partoff, printInt nf.tailoff,
        printTime nf.update] := by
    rw [h.subject.cstr, h.author.cstr]
    exact toks_joinWith (by simp) rfl (by simp [clean_printInt, clean_printUlong, clean_printTime, h.subject, h.author])
  have hline : docTurn group (joinWith '\t' [printInt nf.req, printUlong nf.flags, CString.cstr nf.subject,
      CString.cstr nf.author, printInt nf.partoff, printInt nf.tailoff, printTime nf.update]) .file =
      (.references
        { nf.toNntpFileBase with references := [], flags := nf.flags, tailoff := nf.tailoff, update := nf.update }, none) := by
    unfold docTurn
    rw [htoks]
    simp [lineHead, atoi_printInt, atoul_print, atotime_printTime]
  have hend : ∀ head : RecordHead, docTurn group ['.'] (.references head) = (.part ⟨head, []⟩, none) := fun head => by
    simp [docTurn, dropCr, CString.cstr, nul]
  unfold NntpCache.fileLines
  rw [docRun_cons hline, List.append_assoc, List.append_assoc, docRun_append, docRun_references _ _ h.references]
  dsimp only
  rw [List.singleton_append, docRun_cons (hend _), docRun_append, docRun_parts _ _ h.messageid]
  simp [docRun, docTurn, Record.ofFile, NntpFile.regroup]

theorem docRun_files : ∀ nfs : List NntpFile, (∀ nf ∈ nfs, nf.Savable) →
    docRun group .file (nfs.flatMap NntpCache.fileLines) = (.file, nfs.map (Record.ofFile group))
  | [], _ => rfl
  | nf :: nfs, h => by
    rw [List.flatMap_cons, docRun_append, docRun_fileLines (h nf (by simp)), docRun_files nfs fun x hx => h x (by simp [hx])]
    rfl

end
/-! ### A whole cache -/

namespace NntpCache

/-- The invariant of a cache, with strings that can be saved, and servers that are configured. -/
structure Savable (hasserver : UInt64 → Bool) (c : NntpCache) : Prop where
  files : ∀ nf ∈ c.files, nf.WellFormed
  sorted : Sorted c.files
  totalnum : c.totalnum.toNat = numParts c.files
  serverid : ∀ e ∈ c.serverInfo, e.2.serverid = e.1
  strings : ∀ nf ∈ c.files, nf.Savable
  servers : ∀ e ∈ c.serverInfo, hasserver e.1 = true
  articles : ∀ nf ∈ c.files, ∀ sa ∈ nf.articles, hasserver sa.serverid = true

section
variable {hasserver : UInt64 → Bool} {now : Int64} {group text : Text} {midinfo : MetaMidInfo} {c : NntpCache} {nf : NntpFile}

theorem clean_cacheVersion : Clean cacheVersion := by decide

theorem clean_total : Clean (printUlong c.totalnum ++ ' ' :: printInt Nget.cacheSortver) := by
  intro x hx
  rcases List.mem_append.mp hx with hx | hx
  · exact clean_printUlong _ x hx
  · rcases List.mem_cons.mp hx with rfl | hx
    · decide
    · exact clean_printInt _ x hx

theorem docHeader_headerLine : docHeader c.headerLine = some (c.totalnum, Nget.cacheSortver) := by
  have htoks : toks 2 c.headerLine = some [cacheVersion, printUlong c.totalnum ++ ' ' :: printInt Nget.cacheSortver] :=
    toks_joinWith (by simp) rfl (by simpa using ⟨clean_cacheVersion, clean_total⟩)
  have hspace : (printUlong c.totalnum ++ ' ' :: printInt Nget.cacheSortver).dropWhile (· ≠ ' ') =
    ' ' :: printInt Nget.cacheSortver := by
    rw [List.dropWhile_append_of_pos]
    · simp
    · intro x hx
      have := isDigit_of_mem_toDigits hx
      rw [decide_eq_true_eq]
      rintro rfl
      exact absurd this (by decide)
  unfold docHeader
  rw [htoks, Option.bind_some]
  simp only [List.getD_cons_zero, List.getD_cons_succ, if_true]
  rw [hspace, atoul_printUlong _ (by simp)]
  rfl

theorem toks_serverInfoLine (si : NntpServerInfo) : toks 4 (serverInfoLine si) =
    some [printUlong si.serverid, printUlong si.high, printUlong si.low, printUlong si.num] :=
  toks_joinWith (by simp) rfl (by simp [clean_printUlong])

theorem docServers_lines (rest : List Text) : ∀ sis : List NntpServerInfo,
    docServers (sis.map serverInfoLine ++ ['.'] :: rest) = (sis, some rest)
  | [] => rfl
  | si :: sis => by
    have hdot : (serverInfoLine si).head? ≠ some '.' := by
      unfold serverInfoLine
      rw [head?_joinWith (head?_printUlong _).1]
      exact (head?_printUlong _).2
    rw [List.map_cons, List.cons_append, docServers, if_neg hdot, toks_serverInfoLine, docServers_lines rest sis]
    simp [lineServerInfo, atoul_print]

/-- The document that a cache is saved as. -/
theorem cacheDoc_cacheLines (h : ∀ nf ∈ c.files, nf.Savable) : cacheDoc group c.cacheLines =
    some ⟨c.totalnum, Nget.cacheSortver, c.serverInfo.entries.map (·.2), some (.file, c.files.map (Record.ofFile group))⟩ := by
  have hservers := @docServers_lines (c.files.flatMap fileLines) (c.serverInfo.entries.map (·.2))
  rw [List.map_map] at hservers
  unfold cacheLines cacheDoc
  dsimp only
  rw [docHeader_headerLine, Option.map_some, List.append_assoc, List.singleton_append,
    show (c.serverInfo.entries.map fun e => serverInfoLine e.2) = c.serverInfo.entries.map (serverInfoLine ∘ (·.2)) from rfl,
    hservers, Option.map_some, docRun_files _ h]

theorem newline_partLines {np : NntpPart} (h : Clean np.messageid) : ∀ line ∈ partLines np, '\n' ∉ line := by
  intro line hline
  unfold partLines at hline
  simp only [List.mem_cons, List.mem_append, List.mem_map, List.not_mem_nil, or_false] at hline
  rcases hline with rfl | ⟨sa, -, rfl⟩ | rfl
  · exact newline_joinWith (by simp [clean_printInt, clean_printTime, h.cstr, h])
  · exact newline_joinWith (by simp [clean_printUlong])
  · simp

theorem newline_fileLines (h : nf.Savable) : ∀ line ∈ fileLines nf, '\n' ∉ line := by
  intro line hline
  unfold fileLines at hline
  simp only [List.mem_cons, List.mem_append, List.mem_map, List.mem_flatMap, List.not_mem_nil, or_false] at hline
  rcases hline with rfl | ((⟨ri, hri, rfl⟩ | rfl) | ⟨np, hnp, hline⟩) | rfl
  · exact newline_joinWith (by
      simp [clean_printInt, clean_printUlong, clean_printTime, h.subject.cstr, h.subject, h.author.cstr, h.author])
  · exact (clean_referenceLine (h.references ri hri)).newline
  · simp
  · exact newline_partLines (h.messageid np hnp) line hline
  · simp

theorem newline_cacheLines (h : ∀ nf ∈ c.files, nf.Savable) : ∀ line ∈ c.cacheLines, '\n' ∉ line := by
  intro line hline
  unfold cacheLines at hline
  simp only [List.mem_cons, List.mem_append, List.mem_map, List.mem_flatMap, List.not_mem_nil, or_false] at hline
  rcases hline with rfl | (⟨e, -, rfl⟩ | rfl) | ⟨nf, hnf, hline⟩
  · exact newline_joinWith (by simpa using ⟨clean_cacheVersion, clean_total⟩)
  · exact newline_joinWith (by simp [clean_printUlong])
  · simp
  · exact newline_fileLines (h nf hnf) line hline

/-! ### What the reader makes of it -/

theorem insertFile_append {files : List NntpFile} (h : ∀ f ∈ files, ¬nf.toNntpFileBase.lt f.toNntpFileBase) :
    insertFile files nf = files ++ [nf] := by
  have hall : ∀ f ∈ files, (!nf.toNntpFileBase.lt f.toNntpFileBase) = true := fun f hf => by simpa using h f hf
  unfold insertFile
  rw [List.takeWhile_eq_self_iff.mpr hall, List.dropWhile_eq_nil_iff.mpr hall]

theorem foldl_insertFile_sorted : ∀ fs files : List NntpFile, Sorted (files ++ fs) → fs.foldl insertFile files = files ++ fs
  | [], files, _ => by simp
  | nf :: fs, files, h => by
    have hnf := fun f hf => (List.pairwise_append.mp h).2.2 f hf nf (by simp)
    rw [List.foldl_cons, insertFile_append hnf, foldl_insertFile_sorted fs _ (by simpa using h)]
    simp

theorem addBlock_append {block : NntpPart} (hinc : Increasing (nf.parts ++ [block])) (hne : block.articles ≠ [])
    (hconf : ∀ sa ∈ block.articles, hasserver sa.serverid = true) : addBlock hasserver nf block =
      { nf with
        parts := nf.parts ++ [block]
        haveNum := nf.haveNum + NntpFile.countParts nf.req [block] } := by
  have hkeep : keep hasserver block = block := by
    unfold keep
    rw [List.filter_eq_self.mpr hconf]
  unfold addBlock NntpFile.addpart
  rw [hkeep, if_neg (by simpa using hne), addpart_append hinc]
  simp only [NntpFile.countParts, List.countP_singleton]
  split <;> simp

theorem foldl_addBlock_append : ∀ (blocks : List NntpPart) (nf : NntpFile), Increasing (nf.parts ++ blocks) →
    (∀ block ∈ blocks, block.articles ≠ [] ∧ ∀ sa ∈ block.articles, hasserver sa.serverid = true) →
    blocks.foldl (addBlock hasserver) nf =
      { nf with
        parts := nf.parts ++ blocks
        haveNum := nf.haveNum + NntpFile.countParts nf.req blocks }
  | [], nf, _, _ => by simp [NntpFile.countParts]
  | block :: blocks, nf, hinc, hall => by
    obtain ⟨hne, hconf⟩ := hall block (by simp)
    have hsplit : nf.parts ++ block :: blocks = (nf.parts ++ [block]) ++ blocks := by simp
    rw [hsplit] at hinc ⊢
    rw [List.foldl_cons, addBlock_append (List.pairwise_append.mp hinc).1 hne hconf,
      foldl_addBlock_append blocks _ hinc fun b hb => hall b (by simp [hb])]
    simp only [NntpFile.countParts, List.countP_cons, List.countP_nil, NntpFile.mk.injEq, true_and, and_true]
    push_cast
    ring

/-- The record that a file is saved as has the file. -/
theorem file_ofFile (hnf : nf.WellFormed) (hconf : ∀ sa ∈ nf.articles, hasserver sa.serverid = true) :
    (Record.ofFile group nf).file hasserver = nf.regroup group := by
  have hinc : Increasing (nf.regroup group).parts := List.pairwise_map.mpr hnf.increasing
  have hcount : NntpFile.countParts nf.req (nf.regroup group).parts = NntpFile.countParts nf.req nf.parts := List.countP_map
  have hall : ∀ block ∈ (nf.regroup group).parts,
      block.articles ≠ [] ∧ ∀ sa ∈ block.articles, hasserver sa.serverid = true := by
    intro block hblock
    obtain ⟨p, hp, rfl⟩ := List.mem_map.mp hblock
    refine ⟨by simpa using hnf.articles p hp, fun sa hsa => ?_⟩
    obtain ⟨sa', hsa', rfl⟩ := List.mem_map.mp hsa
    exact hconf sa' (List.mem_flatMap.mpr ⟨p, hp, hsa'⟩)
  have hfold := @foldl_addBlock_append hasserver (nf.regroup group).parts (Record.ofFile group nf).head.file hinc hall
  have hnum : (Record.ofFile group nf).head.file.haveNum +
      NntpFile.countParts (Record.ofFile group nf).head.file.req (nf.regroup group).parts = nf.haveNum := by
    rw [hnf.haveNum, ← hcount]
    exact zero_add _
  rw [hnum] at hfold
  exact hfold

theorem keptFiles_ofFile : ∀ nfs : List NntpFile, (∀ nf ∈ nfs, nf.WellFormed) →
    (∀ nf ∈ nfs, ∀ sa ∈ nf.articles, hasserver sa.serverid = true) →
    keptFiles hasserver (nfs.map (Record.ofFile group)) = nfs.map (·.regroup group)
  | [], _, _ => rfl
  | nf :: nfs, hnf, hconf => by
    have hfile := @file_ofFile hasserver group nf (hnf nf (by simp)) (hconf nf (by simp))
    have hparts : ((Record.ofFile group nf).file hasserver).parts ≠ [] := by
      rw [hfile]
      simpa [NntpFile.regroup] using (hnf nf (by simp)).nonempty
    rw [List.map_cons, keptFiles_cons hparts, hfile,
      keptFiles_ofFile nfs (fun f hf => hnf f (by simp [hf])) fun f hf => hconf f (by simp [hf])]
    rfl

/-- The servers' infos are found again under their ids. -/
theorem addServers_entries {m : SortedMap UInt64 NntpServerInfo} (hid : ∀ e ∈ m, e.2.serverid = e.1)
    (hconf : ∀ e ∈ m, hasserver e.1 = true) : addServers hasserver (m.entries.map (·.2)) ∅ = m := by
  refine SortedMap.ext_find? fun s => ?_
  have hserver : ∀ si ∈ m.entries.map (·.2), hasserver si.serverid = true := by
    intro si hsi
    obtain ⟨e, he, rfl⟩ := List.mem_map.mp hsi
    rw [hid e he]
    exact hconf e he
  rw [find?_addServers _ _ hserver, List.find?_map]
  cases hfind : m.find? s with
  | none =>
    have hnone : (m.entries.find? ((fun si : NntpServerInfo => decide (si.serverid = s)) ∘ (·.2))) = none :=
      List.find?_eq_none.mpr fun e he => by simpa [hid e he] using SortedMap.find?_eq_none_iff.mp hfind e he
    rw [hnone]
    rfl
  | some e =>
    obtain ⟨he, rfl⟩ := SortedMap.find?_eq_some_iff.mp hfind
    obtain ⟨e', he'⟩ : ∃ e', m.entries.find? ((fun si : NntpServerInfo => decide (si.serverid = e.1)) ∘ (·.2)) = some e' :=
      Option.isSome_iff_exists.mp (List.find?_isSome.mpr ⟨e, he, by simpa using hid e he⟩)
    have hmem := List.mem_of_find?_eq_some he'
    have hkey : e'.2.serverid = e.1 := by simpa using List.find?_some he'
    rw [he', SortedMap.eq_of_mem hmem he ((hid e' hmem).symm.trans hkey)]
    rfl

theorem save_eq_some (h : c.save = some text) : text = putLines c.cacheLines := by
  unfold save at h
  split at h
  · exact (Option.some.inj h).symm
  · cases h

theorem cacheDoc_save (hc : c.Savable hasserver) (hsave : c.save = some text) : cacheDoc group (bufLines text) =
    some ⟨c.totalnum, Nget.cacheSortver, c.serverInfo.entries.map (·.2), some (.file, c.files.map (Record.ofFile group))⟩ := by
  rw [save_eq_some hsave, bufLines_putLines (newline_cacheLines hc.strings), cacheDoc_cacheLines hc.strings]

theorem numParts_regroup {nfs : List NntpFile} : numParts (nfs.map (·.regroup group)) = numParts nfs := by
  simp [numParts, NntpFile.regroup, Function.comp_def]

theorem sorted_regroup {nfs : List NntpFile} (h : Sorted nfs) : Sorted (nfs.map (·.regroup group)) := List.pairwise_map.mpr h

end

/-- A cache that is saved and loaded is the cache that was saved. -/
theorem load_save {hasserver : UInt64 → Bool} {now : Int64} {group text : Text} {midinfo : MetaMidInfo} {c : NntpCache}
    (hc : c.Savable hasserver) (hsave : c.save = some text) :
    (load hasserver now group midinfo (some text)).1.serverInfo = c.serverInfo ∧
      (load hasserver now group midinfo (some text)).1.totalnum = c.totalnum ∧
      (load hasserver now group midinfo (some text)).1.files = c.files.map (·.regroup group) := by
  have hkept := @keptFiles_ofFile hasserver group c.files hc.files hc.articles
  rw [load_spec, cacheDoc_save hc hsave]
  refine ⟨addServers_entries hc.serverid hc.servers, ?_, ?_⟩
  · show UInt64.ofNat (numParts (keptFiles hasserver (c.files.map (Record.ofFile group)))) = c.totalnum
    rw [hkept, numParts_regroup, ← hc.totalnum, UInt64.ofNat_toNat]
  · show (keptFiles hasserver (c.files.map (Record.ofFile group))).foldl insertFile [] = _
    rw [hkept]
    exact foldl_insertFile_sorted _ [] (sorted_regroup hc.sorted)

/-- A cache of one file, two of whose references look like an end of the references. -/
def sampleFile : NntpFile :=
  { req := 1, partoff := 0, author := ['a'], subject := ['s'], references := [['.'], [], ['.', '.']], haveNum := 1,
    parts := [⟨1, [⟨1, [], 5, 9, 9⟩], 0, ['m']⟩], tailoff := 0, update := 0 }

def sampleCache : NntpCache :=
  { files := [sampleFile], totalnum := 1, serverInfo := (∅ : SortedMap _ _).assign 1 ⟨1, 5, 5, 1⟩, saveit := true,
    fileread := 1 }

theorem sampleCache_savable : sampleCache.Savable (fun _ => true) where
  files := by
    intro nf hnf
    rw [List.mem_singleton.mp hnf]
    exact ⟨by decide, List.pairwise_singleton _ _, by decide, by decide⟩
  sorted := List.pairwise_singleton _ _
  totalnum := by decide
  serverid := by decide
  strings := by
    intro nf hnf
    rw [List.mem_singleton.mp hnf]
    exact ⟨by simp [sampleFile, Clean, nul], by simp [sampleFile, Clean, nul], by simp [sampleFile, Clean, nul],
      by simp [sampleFile, Clean, nul]⟩
  servers := fun _ _ => rfl
  articles := fun _ _ _ _ => rfl

theorem load_save_sample : (load (fun _ => true) 0 [] {} (some (putLines sampleCache.cacheLines))).1.files = [sampleFile] := by
  have hsave : sampleCache.save = some (putLines sampleCache.cacheLines) := by
    unfold save
    exact if_pos (by decide)
  have hregroup : sampleCache.files.map (·.regroup []) = [sampleFile] := by decide
  exact (load_save sampleCache_savable hsave).2.2.trans hregroup

end NntpCache
end Nget
