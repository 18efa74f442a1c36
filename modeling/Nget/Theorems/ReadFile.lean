import Nget.Theorems.Records

/-! The reader makes its files of the text's records. `Sim` relates a mode of `read_file` with the place in the
    text: the file in the mode is the file of the record so far, and `count` has its parts. One turn keeps that
    (`turn_sim`, by the modes), so `read_file` returns the first record's file that has parts, and the calls of
    `read_file` return all of them (`readFiles_spec`). -/

namespace Nget
open CString NntpFileParts
namespace CacheReader

/-- The reader's mode with `count`, which was `base` before the record, and where the text is. -/
inductive Sim (hasserver : UInt64 → Bool) (base : UInt64) (count : UInt64) : ReadMode → DocPos → Prop where
  | file : count = base → Sim hasserver base count .file .file
  | references {head : RecordHead} : count = base → Sim hasserver base count (.references head.file) (.references head)
  | part {rec : Record} {np : Option Nat} : count = base + UInt64.ofNat (rec.file hasserver).parts.length →
      PointsToArticles (rec.file hasserver) np → Sim hasserver base count (.part (rec.file hasserver) np) (.part rec)
  | added {rec : Record} {block : NntpPart} : count = base + UInt64.ofNat ((rec.file hasserver).parts.length + 1) →
      Sim hasserver base count
        (.part ((rec.file hasserver).addpart (keep hasserver block))
          (some (lowerBound (rec.file hasserver).parts block.partnum)))
        (.part { rec with blocks := rec.blocks ++ [block] })
  | serverArticle {rec : Record} {block : NntpPart} :
      count = base + UInt64.ofNat ((rec.file hasserver).parts.length + 1) →
      Sim hasserver base count
        (.serverArticle ((rec.file hasserver).addpart (keep hasserver block))
          (lowerBound (rec.file hasserver).parts block.partnum))
        (.article rec block)

/-- What a turn comes to: the next mode, or a file with parts, which is the record's that the line ends. -/
inductive TurnSim (hasserver : UInt64 → Bool) (base : UInt64) (count : UInt64) :
    ReadMode ⊕ NntpFile → DocPos × Option Record → Prop where
  | mode {mode : ReadMode} {pos : DocPos} {ended : Option Record} : Sim hasserver base count mode pos →
      (∀ rec, ended = some rec → (rec.file hasserver).parts = []) → TurnSim hasserver base count (.inl mode) (pos, ended)
  | file {rec : Record} : (rec.file hasserver).parts ≠ [] →
      count = base + UInt64.ofNat (rec.file hasserver).parts.length →
      TurnSim hasserver base count (.inr (rec.file hasserver)) (.file, some rec)

/-- What a turn does at a line: it reads the line, and comes to what the line says. -/
def TurnSpec (hasserver : UInt64 → Bool) (now : Int64) (base : UInt64) (r : CacheReader) (mode : ReadMode) (pos : DocPos) :
    Prop :=
  (turn hasserver now r mode).1.f = afterLine r.f ∧ r.SameText (turn hasserver now r mode).1 ∧
    TurnSim hasserver base (turn hasserver now r mode).1.count (turn hasserver now r mode).2
      (docTurn r.group (firstLine r.f) pos)

section
variable {hasserver : UInt64 → Bool} {now : Int64} {base : UInt64} {r : CacheReader}

theorem endMark_f : r.endMark.f = afterLine r.f := by
  unfold endMark
  rw [bgetsp_eq]
  dsimp only
  split <;> rfl

theorem endMark_count : r.endMark.count = r.count := by
  unfold endMark
  rw [bgetsp_eq]
  dsimp only
  split <;> rfl

theorem SameText.endMark {r' : CacheReader} (h : r.SameText r') : r.SameText r'.endMark := by
  unfold CacheReader.endMark
  rw [bgetsp_eq]
  dsimp only
  split <;> exact ⟨h.group, h.totalnum, h.cacheSortver⟩

theorem turn_file (hcount : r.count = base) : TurnSpec hasserver now base r .file .file := by
  unfold TurnSpec turn docTurn
  obtain ⟨hrest, ⟨hnum, htoks⟩ | ⟨hnum, htoks⟩⟩ := @btoks_toks r.f 7 (by decide)
  · rw [htoks]
    dsimp only
    rw [if_pos hnum]
    exact ⟨hrest, ⟨rfl, rfl, rfl⟩, .mode (@Sim.references _ _ _ (lineHead _) hcount) fun rec h => by cases h⟩
  · rw [htoks]
    dsimp only
    rw [if_neg hnum]
    exact ⟨hrest, ⟨rfl, rfl, rfl⟩, .mode (.file hcount) fun rec h => by cases h⟩

theorem turn_references {head : RecordHead} (hcount : r.count = base) :
    TurnSpec hasserver now base r (.references head.file) (.references head) := by
  unfold TurnSpec turn docTurn
  dsimp only
  rw [bgetsp_eq]
  dsimp only
  split
  · exact ⟨rfl, ⟨rfl, rfl, rfl⟩, .mode (@Sim.part _ _ _ ⟨head, []⟩ none (by simpa [Record.file, RecordHead.file] using hcount)
      fun p hp => by cases hp) fun rec h => by cases h⟩
  · exact ⟨rfl, ⟨rfl, rfl, rfl⟩, .mode (@Sim.references _ _ _ { head with references := head.references ++ [lineReference _] }
      hcount) fun rec h => by cases h⟩

theorem turn_serverArticle {rec : Record} {block : NntpPart}
    (hcount : r.count = base + UInt64.ofNat ((rec.file hasserver).parts.length + 1)) :
    TurnSpec hasserver now base r
      (.serverArticle ((rec.file hasserver).addpart (keep hasserver block))
        (lowerBound (rec.file hasserver).parts block.partnum))
      (.article rec block) := by
  unfold TurnSpec turn docTurn
  simp only [head?_firstLine_eq_dot]
  split
  · exact ⟨endMark_f, .endMark ⟨rfl, rfl, rfl⟩, .mode (.added (endMark_count.trans hcount)) fun rec h => by cases h⟩
  · obtain ⟨hrest, ⟨hnum, htoks⟩ | ⟨hnum, htoks⟩⟩ := @btoks_toks r.f 4 (by decide)
    · rw [htoks]
      dsimp only
      rw [if_pos hnum]
      generalize (btoks '\t' 4 true r.f).2.1 = t
      split
      · next hserver =>
        refine ⟨hrest, ⟨rfl, rfl, rfl⟩, .mode ?_ fun rec h => by cases h⟩
        have hsim := @Sim.serverArticle hasserver base r.count rec
          { block with articles := block.articles ++ [lineArticle r.group t] } hcount
        rw [keep_article (show hasserver (lineArticle r.group t).serverid = true from hserver),
          ← addpart_article Record.ascending] at hsim
        exact hsim
      · next hserver =>
        refine ⟨hrest, ⟨rfl, rfl, rfl⟩, .mode ?_ fun rec h => by cases h⟩
        have hsim := @Sim.serverArticle hasserver base r.count rec
          { block with articles := block.articles ++ [lineArticle r.group t] } hcount
        rw [keep_dead (show hasserver (lineArticle r.group t).serverid = false from Bool.not_eq_true _ ▸ hserver)] at hsim
        exact hsim
    · rw [htoks]
      dsimp only
      rw [if_neg hnum]
      exact ⟨hrest, ⟨rfl, rfl, rfl⟩, .mode (.serverArticle hcount) fun rec h => by cases h⟩

/-- In the part mode, an empty part is dropped first, and then the file and the count are right. -/
theorem Sim.dropped {nf : NntpFile} {np : Option Nat} {rec : Record}
    (hsim : Sim hasserver base r.count (.part nf np) (.part rec)) :
    ∃ d : CacheReader × Option Nat, dropEmptyPart now r nf np = (d.1, rec.file hasserver, d.2) ∧ d.1.f = r.f ∧ r.SameText d.1 ∧
      d.1.count = base + UInt64.ofNat (rec.file hasserver).parts.length ∧ PointsToArticles (rec.file hasserver) d.2 := by
  cases hsim with
  | part hcount hnp => exact ⟨(r, np), dropEmptyPart_of_articles hnp, rfl, ⟨rfl, rfl, rfl⟩, hcount, hnp⟩
  | added hcount =>
    obtain ⟨⟨r', nf', np'⟩, hd, hfile, hcount', hrest, hsame, hnp⟩ :=
      @dropEmptyPart_addpart _ now _ _ _ _ Record.ascending hcount
    rw [Record.file_append, hd]
    dsimp only at hfile hcount' hnp
    subst hfile
    exact ⟨(r', np'), rfl, hrest, hsame, hcount', hnp⟩

theorem turn_part {nf : NntpFile} {np : Option Nat} {rec : Record}
    (hsim : Sim hasserver base r.count (.part nf np) (.part rec)) :
    TurnSpec hasserver now base r (.part nf np) (.part rec) := by
  obtain ⟨⟨d, np'⟩, hd, hrest, hsame, hcount, hnp⟩ := @Sim.dropped _ now _ { r with curline := r.curline + 1 } _ _ _ hsim
  dsimp only at hd hrest hcount hnp
  have hsame : r.SameText d := ⟨hsame.group, hsame.totalnum, hsame.cacheSortver⟩
  unfold TurnSpec turn docTurn
  dsimp only
  rw [hd]
  dsimp only
  rw [hrest]
  simp only [head?_firstLine_eq_dot]
  split
  · split
    · next hempty =>
      have hnil : (rec.file hasserver).parts = [] := List.isEmpty_iff.mp hempty
      refine ⟨endMark_f.trans (congrArg afterLine hrest), hsame.endMark.trans ⟨rfl, rfl, rfl⟩,
        .mode (.file ?_) fun rec' h => by cases h; exact hnil⟩
      rw [hnil] at hcount
      exact endMark_count.trans (hcount.trans (by simp))
    · next hempty =>
      exact ⟨endMark_f.trans (congrArg afterLine hrest), hsame.endMark,
        .file (fun h => hempty (List.isEmpty_iff.mpr h)) (endMark_count.trans hcount)⟩
  · obtain ⟨hline, ⟨hnum, htoks⟩ | ⟨hnum, htoks⟩⟩ := @btoks_toks r.f 3 (by decide)
    · rw [htoks]
      dsimp only
      rw [if_pos hnum]
      refine ⟨hline, hsame.trans ⟨rfl, rfl, rfl⟩, .mode ?_ fun rec h => by cases h⟩
      refine @Sim.serverArticle _ _ _ rec (linePart _) ?_
      rw [UInt64.ofNat_add, ← add_assoc, ← hcount]
      rfl
    · rw [htoks]
      dsimp only
      rw [if_neg hnum]
      exact ⟨hline, hsame.trans ⟨rfl, rfl, rfl⟩, .mode (.part hcount hnp) fun rec h => by cases h⟩

/-- One turn, whatever the mode. -/
theorem turn_sim {mode : ReadMode} {pos : DocPos} (hsim : Sim hasserver base r.count mode pos) :
    TurnSpec hasserver now base r mode pos := by
  cases hsim with
  | file hcount => exact turn_file hcount
  | references hcount => exact turn_references hcount
  | part hcount hnp => exact turn_part (.part hcount hnp)
  | added hcount => exact turn_part (.added hcount)
  | serverArticle hcount => exact turn_serverArticle hcount

/-! ### `read_file` -/

/-- What a call of `read_file` comes to, over the lines' end and records: the first file that has parts, or none at
    the end of the text between two records, or an exception at the end inside one. -/
inductive ReadSim (hasserver : UInt64 → Bool) (base : UInt64) (group : Text) :
    CacheReader × Except Text (Option NntpFile) → DocPos × List Record → Prop where
  | done {r : CacheReader} {recs : List Record} : (∀ rec ∈ recs, (rec.file hasserver).parts = []) → r.count = base →
      ReadSim hasserver base group (r, .ok none) (.file, recs)
  | thrown {r : CacheReader} {e : Text} {pos : DocPos} {recs : List Record} :
      (∀ rec ∈ recs, (rec.file hasserver).parts = []) → pos ≠ .file → ReadSim hasserver base group (r, .error e) (pos, recs)
  | file {r : CacheReader} {before : List Record} {rec : Record} : (∀ rec ∈ before, (rec.file hasserver).parts = []) →
      (rec.file hasserver).parts ≠ [] → r.count = base + UInt64.ofNat (rec.file hasserver).parts.length →
      ReadSim hasserver base group (r, .ok (some (rec.file hasserver)))
        ((docRun group .file (bufLines r.f)).1, before ++ rec :: (docRun group .file (bufLines r.f)).2)

/-- A record without parts before the others is passed by. -/
theorem ReadSim.skip {out : CacheReader × Except Text (Option NntpFile)} {run : DocPos × List Record} {group : Text}
    {ended : Option Record} (hended : ∀ rec, ended = some rec → (rec.file hasserver).parts = [])
    (h : ReadSim hasserver base group out run) : ReadSim hasserver base group out (run.1, ended.toList ++ run.2) := by
  have hempty : ∀ {recs : List Record}, (∀ rec ∈ recs, (rec.file hasserver).parts = []) →
      ∀ rec ∈ ended.toList ++ recs, (rec.file hasserver).parts = [] := fun hrecs rec hrec =>
    (List.mem_append.mp hrec).elim (fun h => hended rec (Option.mem_toList.mp h)) (hrecs rec)
  cases h with
  | done hrecs hcount => exact .done (hempty hrecs) hcount
  | thrown hrecs hpos => exact .thrown (hempty hrecs) hpos
  | file hbefore hparts hcount =>
    dsimp only
    rw [← List.append_assoc]
    exact .file (hempty hbefore) hparts hcount

theorem readFileLoop_spec : ∀ (fuel : Nat) (r : CacheReader) (mode : ReadMode) (pos : DocPos), r.f.length ≤ fuel →
    Sim hasserver base r.count mode pos →
    ReadSim hasserver base r.group (readFileLoop hasserver now fuel r mode) (docRun r.group pos (bufLines r.f)) ∧
      r.SameText (readFileLoop hasserver now fuel r mode).1 ∧
      ∀ nf, (readFileLoop hasserver now fuel r mode).2 = .ok (some nf) →
        (readFileLoop hasserver now fuel r mode).1.f.length < r.f.length
  | fuel, r, mode, pos, hfuel, hsim => by
    unfold readFileLoop
    split
    · next hend =>
      rw [List.isEmpty_iff.mp hend]
      cases hsim with
      | file hcount => exact ⟨.done (by simp) hcount, ⟨rfl, rfl, rfl⟩, fun nf h => by cases h⟩
      | _ => exact ⟨.thrown (by simp) (by simp), ⟨rfl, rfl, rfl⟩, fun nf h => by cases h⟩
    · next hline =>
      have hf : r.f ≠ [] := fun h => hline (List.isEmpty_iff.mpr h)
      have hlen := length_afterLine hf
      obtain ⟨hrest, hsame, hturn⟩ := @turn_sim _ now _ _ _ _ hsim
      match fuel with
      | 0 => omega
      | fuel + 1 =>
        dsimp only
        rw [bufLines_eq hf, docRun]
        generalize turn hasserver now r mode = out at *
        generalize docTurn r.group (firstLine r.f) pos = line at *
        obtain ⟨r', o⟩ := out
        dsimp only at *
        cases hturn with
        | mode hsim hended =>
          dsimp only
          have ih := readFileLoop_spec fuel r' _ _ (by rw [hrest]; omega) hsim
          rw [hrest, hsame.group] at ih
          exact ⟨ih.1.skip hended, hsame.trans ih.2.1, fun nf h => (ih.2.2 nf h).trans hlen⟩
        | file hparts hcount =>
          dsimp only
          rw [← hrest, ← hsame.group]
          exact ⟨@ReadSim.file _ _ _ r' [] _ (by simp) hparts hcount, hsame, fun _ _ => by rwa [hrest]⟩

/-- The files of records that have parts. -/
def keptFiles (hasserver : UInt64 → Bool) (recs : List Record) : List NntpFile :=
  (recs.map (·.file hasserver)).filter fun nf => !nf.parts.isEmpty

theorem keptFiles_append {recs recs' : List Record} :
    keptFiles hasserver (recs ++ recs') = keptFiles hasserver recs ++ keptFiles hasserver recs' := by
  simp [keptFiles]

theorem keptFiles_eq_nil {recs : List Record} (h : ∀ rec ∈ recs, (rec.file hasserver).parts = []) :
    keptFiles hasserver recs = [] := by
  simpa [keptFiles] using h

theorem keptFiles_cons {rec : Record} {recs : List Record} (h : (rec.file hasserver).parts ≠ []) :
    keptFiles hasserver (rec :: recs) = rec.file hasserver :: keptFiles hasserver recs := by
  simp [keptFiles, h]

theorem keptFiles_cons_nil {rec : Record} {recs : List Record} (h : (rec.file hasserver).parts = []) :
    keptFiles hasserver (rec :: recs) = keptFiles hasserver recs := by
  simp [keptFiles, h]

/-- The calls of `read_file` return the files of the records, in their order. They throw exactly when the text ends
    inside a record, and else the reader has counted the parts of the files. -/
theorem readFiles_spec : ∀ (fuel : Nat) (r : CacheReader), r.f.length ≤ fuel →
    (readFiles hasserver now fuel r).2.1 = keptFiles hasserver (docRun r.group .file (bufLines r.f)).2 ∧
      ((readFiles hasserver now fuel r).2.2 = none ↔ (docRun r.group .file (bufLines r.f)).1 = .file) ∧
      ((readFiles hasserver now fuel r).2.2 = none → (readFiles hasserver now fuel r).1.count =
        r.count + UInt64.ofNat (NntpCache.numParts (readFiles hasserver now fuel r).2.1)) ∧
      r.SameText (readFiles hasserver now fuel r).1
  | fuel, r, hfuel => by
    obtain ⟨hread, hsame, hless⟩ := @readFileLoop_spec hasserver now _ r.f.length r .file .file le_rfl (.file rfl)
    unfold readFiles readFile
    generalize readFileLoop hasserver now r.f.length r .file = out at *
    generalize docRun r.group .file (bufLines r.f) = run at *
    cases hread with
    | done hrecs hcount =>
      refine ⟨(keptFiles_eq_nil hrecs).symm, by simp, fun _ => ?_, hsame⟩
      exact hcount.trans (by simp [NntpCache.numParts])
    | thrown hrecs hpos => exact ⟨(keptFiles_eq_nil hrecs).symm, by simpa using hpos, by simp, hsame⟩
    | @file r' before rec hbefore hparts hcount =>
      have hlen := hless _ rfl
      dsimp only at hlen
      cases fuel with
      | zero => omega
      | succ fuel =>
        obtain ⟨hfiles, hthrown, hcount', hsame'⟩ := readFiles_spec fuel r' (by omega)
        dsimp only
        have hgroup : r'.group = r.group := hsame.group
        rw [hgroup] at hfiles hthrown
        rw [keptFiles_append, keptFiles_eq_nil hbefore, keptFiles_cons hparts, hfiles]
        refine ⟨rfl, hthrown, fun hnone => ?_, hsame.trans hsame'⟩
        rw [hcount' hnone, hcount, hfiles, NntpCache.numParts_cons, UInt64.ofNat_add, add_assoc]

end
end CacheReader
end Nget
