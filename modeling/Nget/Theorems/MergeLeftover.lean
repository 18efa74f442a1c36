import Nget.Theorems.MergeFile
import Nget.Theorems.CacheRun

/-! What `mergefile` does to both files. The articles of a part that goes keep their number and message-id, every
    number of either file is one of the first file afterwards, and the first file's count follows. The second file's
    count does not: it is right just when none of the parts that count went. -/

namespace Nget
namespace NntpFile
variable {f g x : NntpFile} {p q : NntpPart} {ps : List NntpPart} {n : Int32} {mid : Text}

/-- The parts are in the strict order of their numbers and each has an article, and `have` is their count. -/
structure FileInv (f : NntpFile) : Prop where
  increasing : NntpFileParts.Increasing f.parts
  articles : ∀ p ∈ f.parts, p.articles ≠ []
  haveNum : f.haveNum = countParts f.req f.parts

instance : DecidablePred FileInv := fun f =>
  decidable_of_iff (f.parts.Pairwise (fun a b : NntpPart => a.partnum < b.partnum) ∧ (∀ p ∈ f.parts, p.articles ≠ []) ∧
    f.haveNum = countParts f.req f.parts) ⟨fun h => ⟨h.1, h.2.1, h.2.2⟩, fun h => ⟨h.increasing, h.articles, h.haveNum⟩⟩

/-- The articles of the parts, each with the number and the message-id of its part. -/
def placed (ps : List NntpPart) : Multiset (Int32 × Text × NntpServerArticle) :=
  ps.flatMap fun p => p.articles.map fun sa => (p.partnum, p.messageid, sa)

def HasPart (f : NntpFile) (n : Int32) (mid : Text) : Prop := ∃ p ∈ f.parts, p.partnum = n ∧ p.messageid = mid

def HasNumber (f : NntpFile) (n : Int32) : Prop := ∃ p ∈ f.parts, p.partnum = n

theorem hasNumber_iff : f.HasNumber n ↔ ∃ mid, f.HasPart n mid := by
  constructor
  · rintro ⟨p, hp, hnum⟩
    exact ⟨_, p, hp, hnum, rfl⟩
  · rintro ⟨_, p, hp, hnum, -⟩
    exact ⟨p, hp, hnum⟩

/-- The number of the part is taken by another message. -/
def Conflicts (f : NntpFile) (p : NntpPart) : Prop := ∃ q ∈ f.parts, q.partnum = p.partnum ∧ q.messageid ≠ p.messageid

instance : DecidablePred (Conflicts f) := fun p =>
  inferInstanceAs (Decidable (∃ q ∈ f.parts, q.partnum = p.partnum ∧ q.messageid ≠ p.messageid))

theorem conflicts_iff : f.Conflicts p ↔ ∃ mid ≠ p.messageid, f.HasPart p.partnum mid := by
  constructor
  · rintro ⟨q, hq, hnum, hmid⟩
    exact ⟨_, hmid, q, hq, hnum, rfl⟩
  · rintro ⟨_, hmid, q, hq, hnum, rfl⟩
    exact ⟨q, hq, hnum, hmid⟩

/-- What a part that goes does to the file that it goes to. -/
structure Takes (f : NntpFile) (p : NntpPart) (g : NntpFile) : Prop where
  inv : FileInv g
  placed : placed g.parts = NntpFile.placed [p] + NntpFile.placed f.parts
  hasPart : ∀ n mid, g.HasPart n mid ↔ (n = p.partnum ∧ mid = p.messageid) ∨ f.HasPart n mid

theorem placed_cons : placed (p :: ps) = placed [p] + placed ps := by
  simp [placed]

theorem placed_perm {qs : List NntpPart} (h : ps.Perm qs) : placed ps = placed qs :=
  Multiset.coe_eq_coe.mpr (h.flatMap_right _)

theorem takes_addpart (hf : FileInv f) (hp : p.articles ≠ []) (hnew : NntpFileParts.part f.parts p.partnum = none) :
    Takes f p (f.addpart p) where
  inv := by
    have hwf := NntpCache.wellFormed_addpart hf.increasing hf.articles hf.haveNum hp
      ((NntpFileParts.part_eq_none_iff hf.increasing).mp hnew)
    exact ⟨hwf.increasing, hwf.articles, hwf.haveNum⟩
  placed := (placed_perm (NntpFileParts.addpart_perm hf.increasing.ascending)).trans placed_cons
  hasPart n mid := by
    simp only [HasPart, addpart_parts, NntpFileParts.mem_addpart hf.increasing.ascending, or_and_right, exists_or,
      exists_eq_left]
    exact or_congr_left (and_congr eq_comm eq_comm)

theorem takes_pushArticles {mp : NntpPart} (hf : FileInv f) (hmp : NntpFileParts.part f.parts p.partnum = some mp)
    (hmid : mp.messageid = p.messageid) : Takes f p (f.pushArticles mp p.articles) := by
  obtain ⟨before, after, hparts, hparts'⟩ := @NntpCache.pushArticles_parts _ _ _ p.articles hmp
  have hnum := (NntpFileParts.part_eq_some hmp).2
  obtain ⟨hinc, hart, hhave⟩ := hf
  refine ⟨⟨?_, fun q hq => ?_, ?_⟩, ?_, fun n mid => ?_⟩
  · rw [hparts] at hinc
    rw [hparts']
    unfold NntpFileParts.Increasing at hinc ⊢
    simpa [List.pairwise_append] using hinc
  · rw [hparts'] at hq
    rcases List.mem_append.mp hq with hq | hq
    · exact hart q (by simp [hparts, hq])
    · rcases List.mem_cons.mp hq with rfl | hq
      · exact List.append_ne_nil_of_left_ne_nil (hart mp (by simp [hparts])) _
      · exact hart q (by simp [hparts, hq])
  · rw [hparts']
    rw [hparts] at hhave
    refine hhave.trans ?_
    show ((countParts f.req _ : Nat) : Int) = countParts f.req _
    simp [countParts, List.countP_cons]
  · rw [hparts', hparts]
    simp only [placed, List.flatMap_append, List.flatMap_cons, List.map_append, List.flatMap_nil, List.append_nil, hnum, hmid,
      ← Multiset.coe_add]
    ac_rfl
  · simp only [HasPart, hparts', hparts, List.mem_append, List.mem_cons]
    constructor
    · rintro ⟨q, hq | rfl | hq, hqn, hqm⟩
      · exact Or.inr ⟨q, Or.inl hq, hqn, hqm⟩
      · exact Or.inr ⟨mp, Or.inr (Or.inl rfl), hqn, hqm⟩
      · exact Or.inr ⟨q, Or.inr (Or.inr hq), hqn, hqm⟩
    · rintro (⟨rfl, rfl⟩ | ⟨q, hq | rfl | hq, hqn, hqm⟩)
      · exact ⟨_, Or.inr (Or.inl rfl), hnum, hmid⟩
      · exact ⟨q, Or.inl hq, hqn, hqm⟩
      · exact ⟨_, Or.inr (Or.inl rfl), hqn, hqm⟩
      · exact ⟨q, Or.inr (Or.inr hq), hqn, hqm⟩

/-- A part stays when its number is taken by another message, and goes otherwise. -/
theorem mergePart_takes (hf : FileInv f) (hp : p.articles ≠ []) :
    f.Conflicts p ∧ f.mergePart p = none ∨ ¬f.Conflicts p ∧ ∃ g, f.mergePart p = some g ∧ Takes f p g := by
  have hpart : ∀ q, q ∈ f.parts ∧ q.partnum = p.partnum ↔ NntpFileParts.part f.parts p.partnum = some q := fun q =>
    (NntpFileParts.part_eq_some_iff hf.increasing).symm
  rcases @mergePart_cases f p hf.increasing with ⟨mp, hmp, hmid, hnone⟩ | ⟨mp, hmp, hmid, hsome⟩ | ⟨hnew, hsome⟩
  · obtain ⟨hmem, hnum⟩ := (hpart mp).mpr hmp
    exact Or.inl ⟨⟨mp, hmem, hnum, hmid⟩, hnone⟩
  · refine Or.inr ⟨?_, _, hsome, takes_pushArticles hf hmp hmid⟩
    rintro ⟨q, hq, hnum, hne⟩
    have := hmp.symm.trans ((hpart q).mp ⟨hq, hnum⟩)
    exact hne (Option.some.inj this ▸ hmid)
  · refine Or.inr ⟨?_, _, hsome, takes_addpart hf hp hnew⟩
    rintro ⟨q, hq, hnum, -⟩
    exact absurd (hnew.symm.trans ((hpart q).mp ⟨hq, hnum⟩)) (by simp)

/-- A part that goes leaves the numbers of the other parts as they are. -/
theorem Takes.conflicts_iff (h : Takes f p g) (hne : q.partnum ≠ p.partnum) : g.Conflicts q ↔ f.Conflicts q := by
  simp only [NntpFile.conflicts_iff, h.hasPart, hne, false_and, false_or]

theorem Takes.hasNumber_iff (h : Takes f p g) : g.HasNumber n ↔ n = p.partnum ∨ f.HasNumber n := by
  simp only [NntpFile.hasNumber_iff, h.hasPart, exists_or, exists_and_left, exists_eq, and_true]

/-- What `mergefile`'s loop leaves of the parts `ps`, and what becomes of the file that they go to. -/
structure Merges (f : NntpFile) (ps : List NntpPart) (r : NntpFile × List NntpPart) : Prop where
  inv : FileInv r.1
  placed : placed r.1.parts + placed r.2 = NntpFile.placed f.parts + NntpFile.placed ps
  hasNumber : ∀ n, r.1.HasNumber n ↔ f.HasNumber n ∨ ∃ p ∈ ps, p.partnum = n
  left : r.2 = ps.filter fun p => Conflicts f p

theorem mergeParts_merges : ∀ (ps : List NntpPart) (f : NntpFile), FileInv f → NntpFileParts.Increasing ps →
    (∀ p ∈ ps, p.articles ≠ []) → Merges f ps (f.mergeParts ps)
  | [], f, hf, _, _ => ⟨hf, rfl, fun n => by simp [mergeParts, HasNumber], rfl⟩
  | p :: ps, f, hf, hinc, hart => by
    obtain ⟨hp, hps⟩ := List.forall_mem_cons.mp hart
    obtain ⟨hbelow, hinc⟩ := List.pairwise_cons.mp hinc
    unfold mergeParts
    rcases mergePart_takes hf hp with ⟨hconf, hnone⟩ | ⟨hconf, g, hsome, htakes⟩
    · rw [hnone]
      obtain ⟨hinv, hplaced, hnums, hleft⟩ := mergeParts_merges ps f hf hinc hps
      refine ⟨hinv, ?_, fun n => ?_, ?_⟩
      · dsimp only
        rw [placed_cons, add_left_comm, hplaced, @placed_cons _ ps, add_left_comm]
      · obtain ⟨q, hq, hnum, -⟩ := hconf
        simp only [hnums n, List.mem_cons, exists_eq_or_imp]
        rw [or_left_comm]
        exact (or_iff_right_of_imp fun h => Or.inl ⟨q, hq, hnum.trans h⟩).symm
      · rw [List.filter_cons_of_pos (by simpa using hconf), ← hleft]
    · rw [hsome]
      obtain ⟨hinv, hplaced, hnums, hleft⟩ := mergeParts_merges ps g htakes.inv hinc hps
      refine ⟨hinv, ?_, fun n => ?_, ?_⟩
      · rw [hplaced, htakes.placed, @placed_cons _ ps]
        ac_rfl
      · simp only [hnums n, htakes.hasNumber_iff, List.mem_cons, exists_eq_or_imp]
        rw [or_assoc, or_left_comm, eq_comm]
      · rw [List.filter_cons_of_neg (by simpa using hconf), hleft]
        refine List.filter_congr fun q hq => decide_eq_decide.mpr (htakes.conflicts_iff (hbelow q hq).ne')

theorem mergefile_merges (hx : FileInv x) (hf : FileInv f) : Merges x f.parts ((x.mergefile f).1, (x.mergefile f).2.parts) := by
  obtain ⟨hinv, hplaced, hnums, hleft⟩ := mergeParts_merges f.parts
    { x with update := if x.update < f.update then f.update else x.update } ⟨hx.increasing, hx.articles, hx.haveNum⟩
      hf.increasing hf.articles
  exact ⟨hinv, hplaced, hnums, hleft⟩

/-- The leftover of a file keeps its count, which is then right just when no part that counted went. -/
theorem leftover_inv_iff (hx : FileInv x) (hf : FileInv f) :
    FileInv (x.mergefile f).2 ↔ ∀ p ∈ f.parts, countPartnum p.partnum f.req → x.Conflicts p := by
  have hleft := (mergefile_merges hx hf).left
  dsimp only at hleft
  have hsub := mergefile_sublist (f := x) (g := f)
  have hcount : f.haveNum = countParts f.req (x.mergefile f).2.parts ↔
      ∀ p ∈ f.parts, countPartnum p.partnum f.req → x.Conflicts p := by
    rw [hf.haveNum, Nat.cast_inj, hleft]
    simp only [countParts, List.countP_eq_length_filter]
    constructor
    · intro hlen p hp hcounts
      have hsub := (List.filter_sublist (l := f.parts) (p := fun p => decide (x.Conflicts p))).filter
        fun p => countPartnum p.partnum f.req
      have hmem : p ∈ f.parts.filter fun p => countPartnum p.partnum f.req := List.mem_filter.mpr ⟨hp, hcounts⟩
      rw [← hsub.eq_of_length hlen.symm] at hmem
      simpa using (List.mem_filter.mp (List.mem_filter.mp hmem).1).2
    · intro hall
      rw [List.filter_filter]
      refine congrArg _ (List.filter_congr fun p hp => ?_)
      cases hcounts : countPartnum p.partnum f.req with
      | false => rfl
      | true => simpa using hall p hp hcounts
  constructor
  · exact fun hinv => hcount.mp hinv.haveNum
  · intro hall
    exact ⟨hf.increasing.sublist hsub, fun p hp => hf.articles p (hsub.subset hp), hcount.mpr hall⟩

/-- `mergefile` has kept both files honest: `x` and `f` have become `x'` and `f'`. -/
structure Honest (x f x' f' : NntpFile) : Prop where
  placed : placed x'.parts + placed f'.parts = NntpFile.placed x.parts + NntpFile.placed f.parts
  hasNumber : ∀ n, x.HasNumber n ∨ f.HasNumber n → x'.HasNumber n
  left : f'.parts = f.parts.filter fun p => Conflicts x p
  inv : FileInv x'
  leftoverInv : f'.parts ≠ [] → FileInv f'
  complete : f'.parts ≠ [] → 1 ≤ f'.req → f'.haveNum = f'.req.toInt → ∀ k : Int32, 1 ≤ k → k ≤ f'.req → f'.HasNumber k

/-- `mergefile` keeps both files honest just when all parts of the second file go, or only parts that do not count. All
    but the count of the second file is right in any case. -/
theorem mergefile_honest_iff (hx : FileInv x) (hf : FileInv f) :
    (Honest x f (x.mergefile f).1 (x.mergefile f).2 ↔
      (∀ p ∈ f.parts, ¬x.Conflicts p) ∨ ∀ p ∈ f.parts, countPartnum p.partnum f.req → x.Conflicts p) ∧
    (FileInv (x.mergefile f).2 ↔ ∀ p ∈ f.parts, countPartnum p.partnum f.req → x.Conflicts p) := by
  have hmerges := mergefile_merges hx hf
  have hnil : (x.mergefile f).2.parts = [] ↔ ∀ p ∈ f.parts, ¬x.Conflicts p := by
    have hleft := hmerges.left
    dsimp only at hleft
    rw [hleft, List.filter_eq_nil_iff]
    simp
  refine ⟨?_, leftover_inv_iff hx hf⟩
  rw [← hnil, ← leftover_inv_iff hx hf]
  constructor
  · intro h
    rw [or_iff_not_imp_left]
    exact h.leftoverInv
  · intro h
    have hinv : (x.mergefile f).2.parts ≠ [] → FileInv (x.mergefile f).2 := or_iff_not_imp_left.mp h
    refine ⟨hmerges.placed, fun n => (hmerges.hasNumber n).mpr, hmerges.left, hmerges.inv, hinv, fun hne hreq => ?_⟩
    obtain ⟨hinc, hart, hhave⟩ := hinv hne
    exact (NntpCache.haveNum_eq_req_iff ⟨hne, hinc, hart, hhave⟩ hreq).mp

/-- A file of two parts for the examples that follow: its first part has the message-id `mid`. -/
def twoParts (mid : Text) (parts : List NntpPart) : NntpFile :=
  { req := 2, partoff := 0, author := [], subject := [], references := [], tailoff := -1, update := 0,
    parts := ⟨1, [⟨1, [], 1, 0, 0⟩], 0, mid⟩ :: parts, haveNum := 1 + parts.length }

/-- Part 1 stays, since the other file has another message of that number, and part 2 goes: the leftover claims that it
    has both. -/
theorem mergefile_not_honest :
    let x := twoParts ['a'] []
    let f := twoParts ['b'] [⟨2, [⟨1, [], 2, 0, 0⟩], 0, ['c']⟩]
    (FileInv x ∧ FileInv f ∧ x.toNntpFileBase = f.toNntpFileBase) ∧ ¬Honest x f (x.mergefile f).1 (x.mergefile f).2 := by
  refine ⟨⟨by decide, by decide, rfl⟩, fun h => ?_⟩
  have hclaim := h.complete (by decide) (by decide) (by decide) 2 (by decide) (by decide)
  exact absurd hclaim (by unfold HasNumber; decide)

/-- Part 1 stays and part 3, which does not count, goes. -/
theorem mergefile_honest_uncounted :
    let x := twoParts ['a'] []
    let f := { twoParts ['b'] [⟨3, [⟨1, [], 2, 0, 0⟩], 0, ['c']⟩] with haveNum := 1 }
    (Honest x f (x.mergefile f).1 (x.mergefile f).2 ↔
      (∀ p ∈ f.parts, ¬x.Conflicts p) ∨ ∀ p ∈ f.parts, countPartnum p.partnum f.req → x.Conflicts p) ∧
    (FileInv (x.mergefile f).2 ↔ ∀ p ∈ f.parts, countPartnum p.partnum f.req → x.Conflicts p) :=
  mergefile_honest_iff (by decide) (by decide)

end NntpFile
end Nget
