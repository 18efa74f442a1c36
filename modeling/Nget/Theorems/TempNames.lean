import Nget.Retrieve
import Nget.Theorems.CacheRun

/-! The names of temp files. A name gives the part's number and the checksum of its file, so two parts of a
    cache that have one name are of different files that hash the same text, with one part number.
    Reposts are such files: the key that they share is all that is hashed of a file with `req` from 1 on. -/

namespace Nget
open CString

/-! ### A name is read back -/

theorem digitChar_inj {m n : Nat} (hm : m < 16) (hn : n < 16) (h : m.digitChar = n.digitChar) : m = n := by
  have hall : ∀ a b : Fin 16, Nat.digitChar a = Nat.digitChar b → a = b := by decide
  exact congrArg Fin.val (hall ⟨m, hm⟩ ⟨n, hn⟩ h)

theorem toDigits_sixteen_inj {m n : Nat} (h : Nat.toDigits 16 m = Nat.toDigits 16 n) : m = n := by
  induction m using Nat.strong_induction_on generalizing n with
  | _ m ih =>
    have hlen : ∀ k, 16 ≤ k → 2 ≤ (Nat.toDigits 16 k).length := fun k hk => by
      have := (Nat.length_toDigits_le_iff (n := k) (b := 16) (k := 1) (by decide) (by decide)).not
      omega
    rw [Nat.toDigits_eq_if (by decide), Nat.toDigits_eq_if (n := n) (by decide)] at h
    by_cases hm : m < 16 <;> by_cases hn : n < 16
    · simp only [hm, hn, if_true, List.cons.injEq, and_true] at h
      exact digitChar_inj hm hn h
    · have := hlen n (by omega)
      rw [Nat.toDigits_eq_if (by decide), if_neg hn] at this
      rw [if_pos hm, if_neg hn] at h
      rw [← h] at this
      simp at this
    · have := hlen m (by omega)
      rw [Nat.toDigits_eq_if (by decide), if_neg hm] at this
      rw [if_neg hm, if_pos hn] at h
      rw [h] at this
      simp at this
    · rw [if_neg hm, if_neg hn] at h
      obtain ⟨hdiv, hmod⟩ := List.append_inj' h rfl
      have hdiv := ih (m / 16) (by omega) hdiv
      have hmod := digitChar_inj (Nat.mod_lt m (by decide)) (Nat.mod_lt n (by decide)) (List.cons.inj hmod).1
      omega

theorem dot_not_mem_toDigits (n : Nat) : '.' ∉ Nat.toDigits 16 n := by
  induction n using Nat.strong_induction_on with
  | _ n ih =>
    rw [Nat.toDigits_eq_if (by decide)]
    have hchar : ∀ k : Nat, k.digitChar ≠ '.' := fun k => Nat.digitChar_ne '.' (by decide)
    split
    · simp [(hchar n).symm]
    · simp [(hchar _).symm, ih (n / 16) (by omega)]

theorem printPartnum_inj {m n : Int32} (h : printPartnum m = printPartnum n) : m = n := by
  have hval : ∀ k d : Nat, Nat.ofDigitChars 10 (List.replicate k '0' ++ Nat.toDigits 10 d) 0 = d := fun k d => by
    rw [Nat.ofDigitChars_append, Nat.ofDigitChars_replicate_zero, Nat.mul_zero, Nat.ofDigitChars_ten_toDigits]
  have hminus : ∀ k d : Nat, '-' ∉ List.replicate k '0' ++ Nat.toDigits 10 d := fun k d hmem => by
    rcases List.mem_append.mp hmem with hmem | hmem
    · exact absurd (List.eq_of_mem_replicate hmem) (by decide)
    · exact absurd (isDigit_of_mem_toDigits hmem) (by decide)
  have hsign : ∀ n : Int32, n < 0 ↔ n.toInt < 0 := fun n => Int32.lt_iff_toInt_lt
  rw [← Int32.toInt_inj]
  unfold printPartnum at h
  by_cases hm : m < 0 <;> by_cases hn : n < 0 <;> simp only [hm, hn, if_true, if_false] at h
  · have := congrArg (fun t => Nat.ofDigitChars 10 t 0) (List.cons.inj h).2
    simp only [hval] at this
    rw [hsign] at hm hn
    omega
  · exact absurd (h ▸ List.mem_cons_self) (hminus _ _)
  · exact absurd (h ▸ List.mem_cons_self) (hminus _ _)
  · have := congrArg (fun t => Nat.ofDigitChars 10 t 0) h
    simp only [hval] at this
    rw [hsign] at hm hn
    omega

section
variable {checksum : Text → Nat} {options : NgetOptions} {fr gr : NntpFileRetr} {p q : NntpPart}

theorem hexName_eq_iff {m n : Nat} {a b : Int32} :
    Nat.toDigits 16 m ++ '.' :: printPartnum a = Nat.toDigits 16 n ++ '.' :: printPartnum b ↔ m = n ∧ a = b := by
  constructor
  · intro h
    have hsplit := congrArg (CString.split '.') h
    rw [split_append (dot_not_mem_toDigits m), split_append (dot_not_mem_toDigits n)] at hsplit
    have hid := (List.cons.inj hsplit).1
    rw [hid] at h
    exact ⟨toDigits_sixteen_inj hid, printPartnum_inj (List.cons.inj (List.append_cancel_left h)).2⟩
  · rintro ⟨rfl, rfl⟩
    rfl

/-- Under one path, a name gives the checksum of the file and the number of the part. -/
theorem tempName_eq_iff (hpath : fr.temppath = gr.temppath) : tempName checksum options fr p = tempName checksum options gr q ↔
    fr.file.getfileid checksum = gr.file.getfileid checksum ∧ p.partnum = q.partnum := by
  unfold tempName
  dsimp only
  rw [hpath]
  split
  · rw [List.append_cancel_left_eq, hexName_eq_iff]
  · rw [List.append_cancel_left_eq, List.append_cancel_left_eq, hexName_eq_iff]

/-- Files of one key hash the same text where the first message-id is not hashed with it. -/
theorem fileidText_of_key {f g : NntpFile} (hkey : f.toNntpFileBase = g.toNntpFileBase) (hreq : 0 < f.req) :
    f.fileidText = g.fileidText := by
  have hf : ¬f.req ≤ 0 := not_le.mpr hreq
  unfold NntpFile.fileidText
  rw [if_neg hf, hkey, if_neg (hkey ▸ hf)]

end

/-- In a cache, parts of one temp file name are of one message exactly where no two different files that hash
    the same text have parts of one number with different message-ids. -/
theorem tempName_messageid_iff (checksum : Text → Nat) (hinj : Function.Injective checksum) (options : NgetOptions)
    (ops : List NntpCache.CacheOp) :
    (∀ fr gr : NntpFileRetr, fr.file ∈ (NntpCache.run ops).files → gr.file ∈ (NntpCache.run ops).files →
      fr.temppath = gr.temppath → ∀ p ∈ fr.file.parts, ∀ q ∈ gr.file.parts, p.messageid ≠ q.messageid →
        tempName checksum options fr p ≠ tempName checksum options gr q) ↔
      ∀ f ∈ (NntpCache.run ops).files, ∀ g ∈ (NntpCache.run ops).files, f ≠ g → f.fileidText = g.fileidText →
        ∀ p ∈ f.parts, ∀ q ∈ g.parts, p.partnum = q.partnum → p.messageid = q.messageid := by
  constructor
  · intro h f hf g hg hne htext p hp q hq hnum
    by_contra hmid
    refine h ⟨[], [], f, false⟩ ⟨[], [], g, false⟩ hf hg rfl p hp q hq hmid ?_
    refine (tempName_eq_iff ?_).mpr ⟨?_, hnum⟩
    · rfl
    · exact congrArg checksum htext
  · intro h fr gr hf hg hpath p hp q hq hmid hname
    obtain ⟨hid, hnum⟩ := (tempName_eq_iff hpath).mp hname
    by_cases hfile : fr.file = gr.file
    · -- The parts of one file have different numbers.
      rw [← hfile] at hq
      have hinc := ((NntpCache.run_inv ops).files fr.file hf).increasing
      have hpart := (NntpFileParts.part_eq_some_iff hinc).mpr ⟨hp, hnum⟩
      rw [(NntpFileParts.part_eq_some_iff hinc).mpr ⟨hq, rfl⟩] at hpart
      exact hmid (congrArg NntpPart.messageid (Option.some.inj hpart).symm)
    · exact hmid (h fr.file hf gr.file hg hfile (hinj hid) p hp q hq hnum)

/-- Two posts of part 1 of 2 under one subject, with different message-ids. -/
def repostHeader (articlenum : UInt64) (messageid : Text) : NntpHeader :=
  { (default : NntpHeader) with serverid := 1, articlenum, messageid, partnum := 1, req := 2, subject := ['s'] }

def repostOps : List NntpCache.CacheOp :=
  [.additem (repostHeader 3 ['m']) 0, .additem (repostHeader 4 ['n']) 0]

/-- A checksum that is injective. -/
def sampleChecksum (t : Text) : Nat := Encodable.encode (t.map Char.toNat)

theorem sampleChecksum_injective : Function.Injective sampleChecksum :=
  Encodable.encode_injective.comp (List.map_injective_iff.mpr fun _ _ h => Char.toNat_inj.mp h)

/-- Parts 1 and 2 of one post. -/
def postOps : List NntpCache.CacheOp :=
  [.additem (repostHeader 3 ['m']) 0, .additem { repostHeader 4 ['n'] with partnum := 2 } 0]

theorem tempName_messageid_sample : ∃ f ∈ (NntpCache.run postOps).files, ∃ p ∈ f.parts, ∃ q ∈ f.parts,
    p.messageid ≠ q.messageid ∧
      tempName sampleChecksum {} ⟨[], [], f, false⟩ p ≠ tempName sampleChecksum {} ⟨[], [], f, false⟩ q := by
  have hparts : ∃ f ∈ (NntpCache.run postOps).files, ∃ p ∈ f.parts, ∃ q ∈ f.parts, p.messageid ≠ q.messageid := by decide
  have hdiffer : ∀ f ∈ (NntpCache.run postOps).files, ∀ g ∈ (NntpCache.run postOps).files, f ≠ g →
      f.fileidText = g.fileidText → ∀ p ∈ f.parts, ∀ q ∈ g.parts, p.partnum = q.partnum → p.messageid = q.messageid := by
    decide
  obtain ⟨f, hf, p, hp, q, hq, hmid⟩ := hparts
  have hnames := (tempName_messageid_iff sampleChecksum sampleChecksum_injective {} postOps).mpr hdiffer
  exact ⟨f, hf, p, hp, q, hq, hmid, hnames ⟨[], [], f, false⟩ ⟨[], [], f, false⟩ hf hf rfl p hp q hq hmid⟩

/-- A repost's temp file has the name of the first post's. -/
theorem tempName_of_repost : ¬∀ (checksum : Text → Nat), Function.Injective checksum → ∀ (options : NgetOptions)
    (ops : List NntpCache.CacheOp) (fr gr : NntpFileRetr), fr.file ∈ (NntpCache.run ops).files →
      gr.file ∈ (NntpCache.run ops).files → fr.temppath = gr.temppath →
      ∀ p ∈ fr.file.parts, ∀ q ∈ gr.file.parts, p.messageid ≠ q.messageid →
        tempName checksum options fr p ≠ tempName checksum options gr q := by
  intro h
  have hpair : ∃ f ∈ (NntpCache.run repostOps).files, ∃ g ∈ (NntpCache.run repostOps).files,
      ∃ p ∈ f.parts, ∃ q ∈ g.parts, f.toNntpFileBase = g.toNntpFileBase ∧ 0 < f.req ∧ p.partnum = q.partnum ∧
        p.messageid ≠ q.messageid := by decide
  obtain ⟨f, hf, g, hg, p, hp, q, hq, hkey, hreq, hnum, hmid⟩ := hpair
  refine h sampleChecksum sampleChecksum_injective {} repostOps ⟨[], [], f, false⟩ ⟨[], [], g, false⟩
    hf hg rfl p hp q hq hmid ?_
  refine (tempName_eq_iff ?_).mpr ⟨?_, hnum⟩
  · rfl
  · exact congrArg sampleChecksum (fileidText_of_key hkey hreq)

end Nget
