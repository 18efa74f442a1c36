import Nget.Theorems.CacheDoc

/-! What a loaded cache is worth. A file that is read has parts, and they have articles of configured servers
    only; but its `have` counts the parts that were dropped too (`readCache_sound_iff`). The counters come from
    other lines than the files, so they match them only when the text says so (`load_counters_iff`). -/

namespace Nget
open CString NntpFileParts

/-- The invariant that a file should have when it has been read. -/
structure FileSound (hasserver : UInt64 → Bool) (nf : NntpFile) : Prop where
  nonempty : nf.parts ≠ []
  articles : ∀ p ∈ nf.parts, p.articles ≠ [] ∧ ∀ sa ∈ p.articles, hasserver sa.serverid = true
  haveNum : nf.haveNum = NntpFile.countParts nf.req nf.parts

/-- The record's file stays, and a part of it that counts has no article of a configured server. -/
def Record.Drops (hasserver : UInt64 → Bool) (rec : Record) : Prop :=
  (∃ block ∈ rec.blocks, Served hasserver block) ∧
    ∃ block ∈ rec.blocks, countPartnum block.partnum rec.head.req = true ∧ ¬Served hasserver block

section
variable {hasserver : UInt64 → Bool} {rec : Record} {recs : List Record}

/-! ### The file of a record -/

theorem Record.file_parts_ne_nil : (rec.file hasserver).parts ≠ [] ↔ ∃ block ∈ rec.blocks, Served hasserver block := by
  rw [ne_eq, ← List.length_eq_zero_iff, Record.file_parts.length_eq, List.length_map, List.length_eq_zero_iff,
    List.filter_eq_nil_iff]
  simp

theorem Record.file_articles {p : NntpPart} (hp : p ∈ (rec.file hasserver).parts) :
    p.articles ≠ [] ∧ ∀ sa ∈ p.articles, hasserver sa.serverid = true := by
  obtain ⟨block, hblock, rfl⟩ := List.mem_map.mp (Record.file_parts.mem_iff.mp hp)
  have hserved : Served hasserver block := by simpa using (List.mem_filter.mp hblock).2
  exact ⟨fun h => keep_isEmpty_iff.mp (List.isEmpty_iff.mpr h) hserved, fun sa hsa => (List.mem_filter.mp hsa).2⟩

/-- `have` is right exactly when no part that counts was dropped. -/
theorem Record.file_haveNum_iff :
    (rec.file hasserver).haveNum = NntpFile.countParts (rec.file hasserver).req (rec.file hasserver).parts ↔
    ∀ block ∈ rec.blocks, countPartnum block.partnum rec.head.req = true → Served hasserver block := by
  have hreq : (rec.file hasserver).req = rec.head.req := congrArg (·.req) Record.file_toNntpFileBase
  have hparts : NntpFile.countParts rec.head.req (rec.file hasserver).parts =
      NntpFile.countParts rec.head.req (rec.blocks.filter fun b => decide (Served hasserver b)) := by
    unfold NntpFile.countParts
    rw [Record.file_parts.countP_eq, List.countP_map]
    rfl
  have hsplit := List.countP_eq_countP_filter_add rec.blocks (fun p => countPartnum p.partnum rec.head.req)
    fun b => decide (Served hasserver b)
  rw [Record.file_haveNum, hreq, hparts, Nat.cast_inj]
  unfold NntpFile.countParts
  rw [hsplit, Nat.add_eq_left, List.countP_eq_zero]
  constructor
  · intro h block hblock hcount
    by_contra hnot
    exact h block (List.mem_filter.mpr ⟨hblock, by simpa using hnot⟩) hcount
  · intro h block hblock hcount
    obtain ⟨hblock, hnot⟩ := List.mem_filter.mp hblock
    simp only [Bool.not_eq_true', decide_eq_false_iff_not] at hnot
    exact hnot (h block hblock hcount)

theorem mem_keptFiles {nf : NntpFile} : nf ∈ CacheReader.keptFiles hasserver recs ↔
    ∃ rec ∈ recs, (rec.file hasserver).parts ≠ [] ∧ rec.file hasserver = nf := by
  unfold CacheReader.keptFiles
  rw [List.mem_filter, List.mem_map]
  constructor
  · rintro ⟨⟨rec, hrec, rfl⟩, hparts⟩
    exact ⟨rec, hrec, by simpa using hparts, rfl⟩
  · rintro ⟨rec, hrec, hparts, rfl⟩
    exact ⟨⟨rec, hrec, rfl⟩, by simpa using hparts⟩

theorem keptFiles_sound_iff : (∀ nf ∈ CacheReader.keptFiles hasserver recs, FileSound hasserver nf) ↔
    ∀ rec ∈ recs, ¬rec.Drops hasserver := by
  constructor
  · rintro h rec hrec ⟨hstays, block, hblock, hcount, hnot⟩
    have hsound := h _ (mem_keptFiles.mpr ⟨rec, hrec, Record.file_parts_ne_nil.mpr hstays, rfl⟩)
    exact hnot (Record.file_haveNum_iff.mp hsound.haveNum block hblock hcount)
  · intro h nf hnf
    obtain ⟨rec, hrec, hparts, rfl⟩ := mem_keptFiles.mp hnf
    refine ⟨hparts, fun p hp => Record.file_articles hp, Record.file_haveNum_iff.mpr fun block hblock hcount => ?_⟩
    by_contra hnot
    exact h rec hrec ⟨Record.file_parts_ne_nil.mp hparts, block, hblock, hcount, hnot⟩

/-- The records of a cache text. -/
def textRecords (group f : Text) : List Record := ((CacheReader.cacheDoc group (bufLines f)).map (·.records)).getD []

theorem readCache_files {now : Int64} {f : Text} {midinfo : MetaMidInfo} {group : Text} :
    (CacheReader.readCache hasserver now f midinfo group).2.1 = CacheReader.keptFiles hasserver (textRecords group f) := by
  have h := @CacheReader.readCache_spec hasserver now f midinfo group
  unfold textRecords
  cases hd : CacheReader.cacheDoc group (bufLines f) with
  | none =>
    rw [hd] at h
    exact h.1
  | some d =>
    rw [hd] at h
    exact h.1

end

/-- Every file that is read from a text satisfies the invariant, except when a part that counts is dropped from a
    file that stays. -/
theorem readCache_sound_iff (hasserver : UInt64 → Bool) (now : Int64) (f : Text) (midinfo : MetaMidInfo) (group : Text) :
    (∀ nf ∈ (CacheReader.readCache hasserver now f midinfo group).2.1, FileSound hasserver nf) ↔
      ∀ rec ∈ textRecords group f, ¬rec.Drops hasserver := by
  rw [readCache_files]
  exact keptFiles_sound_iff

/-- Two parts of two, the second of which only server 2 has. -/
def droppedPartText : Text :=
  "NGET5\t2 1\n.\n2\t0\ts\ta\t0\t0\t0\n.\n1\t0\tm1\n1\t5\t9\t9\n.\n2\t0\tm2\n2\t6\t9\t9\n.\n.\n".toList

/-- Without server 2 the file has one part, and its `have` is 2. -/
theorem readCache_counts_dropped_part : ¬∀ nf ∈ (CacheReader.readCache (· = 1) 0 droppedPartText {} []).2.1,
    FileSound (· = 1) nf := by
  have hread : (CacheReader.readCache (· = 1) 0 droppedPartText {} []).2.1.any fun nf =>
      nf.haveNum ≠ NntpFile.countParts nf.req nf.parts := by decide +kernel
  obtain ⟨nf, hnf, hne⟩ := List.any_eq_true.mp hread
  exact fun h => of_decide_eq_true hne (h nf hnf).haveNum

/-! ### The counters -/

namespace NntpCache
open CacheReader

theorem insertFile_perm {files : List NntpFile} {nf : NntpFile} : (insertFile files nf).Perm (nf :: files) := by
  unfold insertFile
  refine List.perm_middle.trans (List.Perm.cons nf ?_)
  rw [List.takeWhile_append_dropWhile]

theorem foldl_insertFile_perm : ∀ fs files : List NntpFile, (fs.foldl insertFile files).Perm (fs ++ files)
  | [], _ => .refl _
  | _ :: fs, _ => (foldl_insertFile_perm fs _).trans ((insertFile_perm.append_left fs).trans List.perm_middle)

theorem numParts_perm {fs gs : List NntpFile} (h : fs.Perm gs) : numParts fs = numParts gs := (h.map _).sum_eq

theorem countServer_of_perm {fs gs : List NntpFile} (h : fs.Perm gs) (s : UInt64) : countServer s fs = countServer s gs := by
  unfold countServer articles
  exact (h.flatMap_right _).countP_eq _

/-- The totals that the loader should give. -/
structure CountersRight (c : NntpCache) : Prop where
  totalnum : c.totalnum = UInt64.ofNat (numParts c.files)
  num : ∀ s, (c.servinfo s).num = UInt64.ofNat (countServer s c.files)

/-- The articles of a text's records. -/
def docArticles (d : CacheDoc) : List NntpServerArticle := d.records.flatMap fun rec => rec.blocks.flatMap (·.articles)

/-- The number of the blocks of a text's records that have an article. -/
def docParts (d : CacheDoc) : Nat := (d.records.flatMap (·.blocks)).countP fun block => !block.articles.isEmpty

/-- The count that a text gives for a server, on the server's first line. -/
def docNum (d : CacheDoc) (s : UInt64) : UInt64 := ((d.servers.find? fun si => si.serverid = s).map (·.num)).getD 0

/-- All servers that the text names are configured. -/
def DocConfigured (hasserver : UInt64 → Bool) (d : CacheDoc) : Prop :=
  (∀ si ∈ d.servers, hasserver si.serverid = true) ∧ ∀ sa ∈ docArticles d, hasserver sa.serverid = true

/-- The text's own counts are right: it does not end inside a record, or has no part before that, and each server
    has as many articles as its line says. -/
structure DocCounts (d : CacheDoc) : Prop where
  complete : d.complete = true ∨ UInt64.ofNat (docParts d) = 0
  num : ∀ s, docNum d s = UInt64.ofNat ((docArticles d).countP fun sa => sa.serverid = s)

section
variable {hasserver : UInt64 → Bool} {rec : Record} {recs : List Record}

/-- A block without articles of configured servers has none to give. -/
theorem flatMap_served : ∀ blocks : List NntpPart,
    ((blocks.filter fun b => decide (Served hasserver b)).map (keep hasserver)).flatMap (·.articles) =
      (blocks.flatMap (·.articles)).filter fun sa => hasserver sa.serverid
  | [] => rfl
  | block :: blocks => by
    rw [List.flatMap_cons, List.filter_append, ← flatMap_served blocks]
    by_cases hb : Served hasserver block
    · rw [List.filter_cons_of_pos (by simpa using hb), List.map_cons, List.flatMap_cons]
      rfl
    · have hnil : (block.articles.filter fun sa => hasserver sa.serverid) = [] := List.isEmpty_iff.mp (keep_isEmpty_iff.mpr hb)
      rw [List.filter_cons_of_neg (by simpa using hb), hnil, List.nil_append]

theorem file_articles_perm : (rec.file hasserver).articles.Perm
    ((rec.blocks.flatMap (·.articles)).filter fun sa => hasserver sa.serverid) := by
  rw [← flatMap_served]
  exact Record.file_parts.flatMap_right _

theorem numParts_keptFiles : ∀ recs : List Record,
    numParts (keptFiles hasserver recs) = (recs.flatMap (·.blocks)).countP fun b => decide (Served hasserver b)
  | [] => rfl
  | rec :: recs => by
    have hlen : (rec.file hasserver).parts.length = rec.blocks.countP fun b => decide (Served hasserver b) := by
      rw [Record.file_parts.length_eq, List.length_map, ← List.countP_eq_length_filter]
    rw [List.flatMap_cons, List.countP_append, ← numParts_keptFiles recs, ← hlen]
    by_cases h : (rec.file hasserver).parts = []
    · rw [h, List.length_nil, zero_add, keptFiles_cons_nil h]
    · rw [keptFiles_cons h, numParts_cons]

theorem countServer_keptFiles (s : UInt64) : ∀ recs : List Record, countServer s (keptFiles hasserver recs) =
    (recs.flatMap fun rec => rec.blocks.flatMap (·.articles)).countP fun sa => hasserver sa.serverid && sa.serverid = s
  | [] => rfl
  | rec :: recs => by
    have hrec : (rec.file hasserver).articles.countP (fun sa => sa.serverid = s) =
        (rec.blocks.flatMap (·.articles)).countP fun sa => hasserver sa.serverid && sa.serverid = s := by
      rw [file_articles_perm.countP_eq, List.countP_filter]
      simp only [Bool.and_comm]
    rw [List.flatMap_cons, List.countP_append, ← countServer_keptFiles s recs, ← hrec]
    by_cases h : (rec.file hasserver).parts = []
    · rw [keptFiles_cons_nil h]
      simp [NntpFile.articles, h]
    · rw [keptFiles_cons h]
      simp [countServer]

theorem find?_addServers {s : UInt64} : ∀ (servers : List NntpServerInfo) (m : SortedMap UInt64 NntpServerInfo),
    (∀ si ∈ servers, hasserver si.serverid = true) →
    (addServers hasserver servers m).find? s = (m.find? s).or ((servers.find? fun si => si.serverid = s).map fun si => (s, si))
  | [], m, _ => by simp [addServers]
  | si :: servers, m, h => by
    rw [addServers_cons, if_pos (h si (by simp)), find?_addServers servers _ fun x hx => h x (by simp [hx]),
      SortedMap.find?_insertNew, Option.or_assoc]
    by_cases hs : si.serverid = s
    · rw [if_pos hs.symm, List.find?_cons_of_pos (by simpa using hs), Option.some_or, hs]
      rfl
    · rw [if_neg (Ne.symm hs), List.find?_cons_of_neg (by simpa using hs), Option.none_or]

theorem ofDoc_servinfo_num {d : CacheDoc} {group : Text} {s : UInt64} (h : ∀ si ∈ d.servers, hasserver si.serverid = true) :
    ((ofDoc hasserver group (some d)).servinfo s).num = docNum d s := by
  unfold servinfo docNum
  rw [show (ofDoc hasserver group (some d)).serverInfo = addServers hasserver d.servers ∅ from rfl, find?_addServers _ _ h]
  cases d.servers.find? fun si => si.serverid = s <;> rfl

theorem counters_iff_of_doc {d : CacheDoc} {group : Text} (h : DocConfigured hasserver d) :
    CountersRight (ofDoc hasserver group (some d)) ↔ DocCounts d := by
  have hperm : (ofDoc hasserver group (some d)).files.Perm (keptFiles hasserver d.records) := by
    have := foldl_insertFile_perm (keptFiles hasserver d.records) []
    rwa [List.append_nil] at this
  have hparts : numParts (ofDoc hasserver group (some d)).files = docParts d := by
    rw [numParts_perm hperm, numParts_keptFiles]
    refine List.countP_congr fun block hblock => ?_
    obtain ⟨rec, hrec, hblock⟩ := List.mem_flatMap.mp hblock
    have hall : ∀ sa ∈ block.articles, hasserver sa.serverid = true := fun sa hsa =>
      h.2 sa (List.mem_flatMap.mpr ⟨rec, hrec, List.mem_flatMap.mpr ⟨block, hblock, hsa⟩⟩)
    simp only [decide_eq_true_eq, Bool.not_eq_true', List.isEmpty_eq_false_iff_exists_mem]
    exact ⟨fun ⟨sa, hsa, _⟩ => ⟨sa, hsa⟩, fun ⟨sa, hsa⟩ => ⟨sa, hsa, hall sa hsa⟩⟩
  have hserver : ∀ s, countServer s (ofDoc hasserver group (some d)).files =
      (docArticles d).countP fun sa => sa.serverid = s := by
    intro s
    rw [countServer_of_perm hperm, countServer_keptFiles]
    refine List.countP_congr fun sa hsa => ?_
    rw [h.2 sa hsa, Bool.true_and]
  have htotal : (ofDoc hasserver group (some d)).totalnum = if d.complete then UInt64.ofNat (docParts d) else 0 := by
    rw [← hparts, numParts_perm hperm]
    rfl
  constructor
  · rintro ⟨htotalnum, hnum⟩
    refine ⟨?_, fun s => ?_⟩
    · rw [htotal, hparts] at htotalnum
      by_cases hcomplete : d.complete = true
      · exact Or.inl hcomplete
      · rw [if_neg hcomplete] at htotalnum
        exact Or.inr htotalnum.symm
    · rw [← ofDoc_servinfo_num h.1, hnum, hserver]
  · rintro ⟨hcomplete, hnum⟩
    refine ⟨?_, fun s => by rw [ofDoc_servinfo_num h.1, hnum, hserver]⟩
    rw [htotal, hparts]
    rcases hcomplete with hcomplete | hzero
    · rw [if_pos hcomplete]
    · rw [hzero, ite_self]

end

/-- The loaded cache's counters are right exactly when the text has no valid first line, or its own counts are right. -/
theorem load_counters_iff (hasserver : UInt64 → Bool) (now : Int64) (group : Text) (midinfo : MetaMidInfo) (f : Text)
    (h : ∀ d, cacheDoc group (bufLines f) = some d → DocConfigured hasserver d) :
    CountersRight (load hasserver now group midinfo (some f)).1 ↔
      ∀ d, cacheDoc group (bufLines f) = some d → DocCounts d := by
  rw [load_spec]
  cases hd : cacheDoc group (bufLines f) with
  | none => exact ⟨fun _ d hd => (by cases hd), fun _ => ⟨rfl, fun s => rfl⟩⟩
  | some d =>
    rw [counters_iff_of_doc (h d hd)]
    simp

/-- A file of one part, whose article server 1 has, in a whole text. -/
def onePartText : Text := "NGET5\t1 1\n1\t5\t5\t1\n.\n1\t0\ts\ta\t0\t0\t0\n.\n1\t0\tm1\n1\t5\t9\t9\n.\n.\n".toList

theorem load_counters_sample : CountersRight (load (fun _ => true) 0 [] {} (some onePartText)).1 := by
  refine (load_counters_iff _ _ _ _ _ fun d _ => ⟨fun _ _ => rfl, fun _ _ => rfl⟩).mpr fun d hd => ?_
  have hdoc : cacheDoc [] (bufLines onePartText) = some ⟨1, 1, [⟨1, 5, 5, 1⟩], some (.file,
      [⟨⟨⟨1, 0, ['a'], ['s'], []⟩, 0, 0, 0⟩, [⟨1, [⟨1, [], 5, 9, 9⟩], 0, ['m', '1']⟩]⟩])⟩ := by decide +kernel
  obtain rfl := Option.some.inj (hdoc.symm.trans hd)
  refine ⟨Or.inl rfl, fun s => ?_⟩
  by_cases hs : 1 = s <;> simp [docNum, docArticles, CacheDoc.records, hs]

/-- The text cut off in a second file: the file before it stays, and `totalnum` is 0. -/
theorem load_cut_counts_no_part :
    ¬CountersRight (load (fun _ => true) 0 [] {} (some (onePartText ++ "1\t0\ts\ta\t0\t0\t0\n".toList))).1 := by
  have hload : (load (fun _ => true) 0 [] {} (some (onePartText ++ "1\t0\ts\ta\t0\t0\t0\n".toList))).1.totalnum = 0 ∧
      numParts (load (fun _ => true) 0 [] {} (some (onePartText ++ "1\t0\ts\ta\t0\t0\t0\n".toList))).1.files = 1 := by
    decide +kernel
  intro h
  have := h.totalnum
  rw [hload.1, hload.2] at this
  exact absurd this (by decide)

end NntpCache
end Nget
