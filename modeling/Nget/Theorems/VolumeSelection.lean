import Nget.Theorems.ParRetrieval
import Mathlib

/-! Which volumes `get_pxxs` queues. Where the expressions that match a subject agree on its volume, a file offers one
    volume at most: the loop takes the first file of each new volume until enough are taken, and the count before it in
    optimistic mode stops short exactly where there are enough. -/

open Finset

namespace Nget
open CString

variable {W : Type} {par : ParOutside W} {basenames : List Text}

/-- The volume of a file, by the first expression of the set that matches its subject. -/
def volumeOf (par : ParOutside W) (basenames : List Text) (f : NntpFile) : Option UInt32 :=
  basenames.findSome? fun basename => (par.subjmatchPar1 basename f.subject).map fun ext => (atoi ext).toUInt32

/-- The expressions that match the subject of the file agree on its volume. -/
def OneVolume (par : ParOutside W) (basenames : List Text) (f : NntpFile) : Prop :=
  ∀ basename ∈ basenames, ∀ ext, par.subjmatchPar1 basename f.subject = some ext →
    volumeOf par basenames f = some (atoi ext).toUInt32

/-- The volumes that are not held and that some file of the list offers. -/
def newVolumes (par : ParOutside W) (basenames : List Text) (havevols : List UInt32) (fs : List NntpFile) : Finset UInt32 :=
  (fs.filterMap (volumeOf par basenames)).toFinset \ havevols.toFinset

/-! ### The volume of a file -/

theorem exists_of_volumeOf {f : NntpFile} {vol : UInt32} (h : volumeOf par basenames f = some vol) :
    ∃ basename ∈ basenames, ∃ ext, par.subjmatchPar1 basename f.subject = some ext ∧ (atoi ext).toUInt32 = vol := by
  obtain ⟨basename, hmem, hext⟩ := List.exists_of_findSome?_eq_some h
  obtain ⟨ext, hmatch, hvol⟩ := Option.map_eq_some_iff.mp hext
  exact ⟨basename, hmem, ext, hmatch, hvol⟩

theorem pxxVolume_some {havevols : List UInt32} {subject : Text} {vol : UInt32} :
    ∀ {basenames : List Text}, pxxVolume par havevols subject basenames = some vol →
      vol ∉ havevols ∧ ∃ basename ∈ basenames, ∃ ext, par.subjmatchPar1 basename subject = some ext ∧
        (atoi ext).toUInt32 = vol
  | basename :: basenames, h => by
    have htail : pxxVolume par havevols subject basenames = some vol → vol ∉ havevols ∧ ∃ b ∈ basename :: basenames,
        ∃ ext, par.subjmatchPar1 b subject = some ext ∧ (atoi ext).toUInt32 = vol := fun h => by
      obtain ⟨hnew, b, hb, hext⟩ := pxxVolume_some h
      exact ⟨hnew, b, List.mem_cons_of_mem basename hb, hext⟩
    unfold pxxVolume at h
    split at h
    · next ext hmatch =>
      dsimp only at h
      split at h
      · exact htail h
      · next hnew =>
        cases h
        exact ⟨hnew, basename, List.mem_cons_self, ext, hmatch, rfl⟩
    · exact htail h

theorem pxxVolume_none {havevols : List UInt32} {subject : Text} :
    ∀ {basenames : List Text}, pxxVolume par havevols subject basenames = none →
      ∀ basename ∈ basenames, ∀ ext, par.subjmatchPar1 basename subject = some ext → (atoi ext).toUInt32 ∈ havevols
  | b :: basenames, h, basename, hmem, ext, hmatch => by
    unfold pxxVolume at h
    rcases List.mem_cons.mp hmem with rfl | hmem
    · rw [hmatch] at h
      by_contra hnew
      simp [hnew] at h
    · split at h
      · dsimp only at h
        split at h
        · exact pxxVolume_none h basename hmem ext hmatch
        · cases h
      · exact pxxVolume_none h basename hmem ext hmatch

/-- The volume that a file is added for is its volume, unless that is held. -/
theorem pxxVolume_eq_some {havevols : List UInt32} {f : NntpFile} (hone : OneVolume par basenames f) {vol : UInt32} :
    pxxVolume par havevols f.subject basenames = some vol ↔ volumeOf par basenames f = some vol ∧ vol ∉ havevols := by
  constructor
  · intro h
    obtain ⟨hnew, basename, hmem, ext, hmatch, rfl⟩ := pxxVolume_some h
    exact ⟨hone basename hmem ext hmatch, hnew⟩
  · rintro ⟨hvol, hnew⟩
    obtain ⟨basename, hmem, ext, hmatch, rfl⟩ := exists_of_volumeOf hvol
    cases hfound : pxxVolume par havevols f.subject basenames with
    | none => exact absurd (pxxVolume_none hfound basename hmem ext hmatch) hnew
    | some vol =>
      obtain ⟨-, b, hb, ext', hmatch', rfl⟩ := pxxVolume_some hfound
      exact (hone b hb ext' hmatch').symm.trans (hone basename hmem ext hmatch)

/-! ### The loop that takes files -/

theorem newVolumes_cons_of_pxxVolume {havevols : List UInt32} {f : NntpFile} {fs : List NntpFile} {vol : UInt32}
    (hone : OneVolume par basenames f) (h : pxxVolume par havevols f.subject basenames = some vol) :
    vol ∉ newVolumes par basenames (vol :: havevols) fs ∧
      newVolumes par basenames havevols (f :: fs) = insert vol (newVolumes par basenames (vol :: havevols) fs) := by
  obtain ⟨hvol, hnew⟩ := (pxxVolume_eq_some hone).mp h
  unfold newVolumes
  rw [List.filterMap_cons_some hvol]
  constructor
  · simp
  · ext v
    simp only [List.toFinset_cons, mem_sdiff, mem_insert, List.mem_toFinset]
    grind

theorem newVolumes_cons_of_none {havevols : List UInt32} {f : NntpFile} {fs : List NntpFile}
    (h : pxxVolume par havevols f.subject basenames = none) :
    newVolumes par basenames havevols (f :: fs) = newVolumes par basenames havevols fs := by
  unfold newVolumes
  cases hvol : volumeOf par basenames f with
  | none => rw [List.filterMap_cons_none hvol]
  | some vol =>
    obtain ⟨basename, hmem, ext, hmatch, rfl⟩ := exists_of_volumeOf hvol
    have hheld := pxxVolume_none h basename hmem ext hmatch
    rw [List.filterMap_cons_some hvol, List.toFinset_cons, insert_sdiff_of_mem _ (List.mem_toFinset.mpr hheld)]

/-- The files that the loop takes with so many taken before: as many as there are new volumes, up to the number wanted,
    each with a new volume of its own. -/
structure TakesNew (par : ParOutside W) (basenames : List Text) (num cur : Int) (havevols : List UInt32)
    (fs added : List NntpFile) : Prop where
  count : (added.length : Int) = min (num - cur) (newVolumes par basenames havevols fs).card
  fresh : ∀ f ∈ added, ∃ vol, volumeOf par basenames f = some vol ∧ vol ∉ havevols
  distinct : added.Pairwise fun f g => volumeOf par basenames f ≠ volumeOf par basenames g

theorem takePxxs_takesNew {num : Int} : ∀ (fs : List NntpFile) (cur : Int) (havevols : List UInt32),
    cur ≤ num → (∀ f ∈ fs, OneVolume par basenames f) →
      TakesNew par basenames num cur havevols fs (takePxxs par num basenames fs cur havevols).1
  | [], cur, havevols, hcur, _ =>
    ⟨by simpa [takePxxs, newVolumes] using hcur, fun _ hf => absurd hf List.not_mem_nil, List.Pairwise.nil⟩
  | f :: fs, cur, havevols, hcur, hone => by
    rw [List.forall_mem_cons] at hone
    unfold takePxxs
    split
    · next hmore =>
      split
      · next vol hvol =>
        obtain ⟨hnotin, hvolumes⟩ := @newVolumes_cons_of_pxxVolume _ par basenames havevols f fs vol hone.1 hvol
        obtain ⟨hthis, hnew⟩ := (pxxVolume_eq_some hone.1).mp hvol
        obtain ⟨hcount, hfresh, hdistinct⟩ := takePxxs_takesNew fs (cur + 1) (vol :: havevols)
          (Int.add_one_le_iff.mpr hmore) hone.2
        refine ⟨?_, ?_, List.pairwise_cons.mpr ⟨fun g hg heq => ?_, hdistinct⟩⟩
        · rw [hvolumes, card_insert_of_notMem hnotin, List.length_cons]
          push_cast
          omega
        · rw [List.forall_mem_cons]
          refine ⟨⟨vol, hthis, hnew⟩, fun g hg => ?_⟩
          obtain ⟨v, hv, hv'⟩ := hfresh g hg
          exact ⟨v, hv, fun hmem => hv' (List.mem_cons_of_mem vol hmem)⟩
        · obtain ⟨v, hv, hv'⟩ := hfresh g hg
          rw [hthis, hv, Option.some_inj] at heq
          exact hv' (heq ▸ List.mem_cons_self)
      · next hnone =>
        obtain ⟨hcount, hfresh, hdistinct⟩ := takePxxs_takesNew fs cur havevols hcur hone.2
        exact ⟨by rw [newVolumes_cons_of_none hnone]; exact hcount, hfresh, hdistinct⟩
    · refine ⟨?_, fun _ hf => absurd hf List.not_mem_nil, List.Pairwise.nil⟩
      rw [List.length_nil]
      omega

/-! ### The count in optimistic mode -/

theorem mem_foldl_insert {vols : List UInt32} : ∀ {l : List UInt32} {vol : UInt32},
    vol ∈ vols.foldl (fun l vol => l.insert vol) l ↔ vol ∈ l ∨ vol ∈ vols := by
  induction vols with
  | nil => simp
  | cons v vols ih =>
    intro l vol
    rw [List.foldl_cons, ih, List.mem_insert_iff, List.mem_cons]
    tauto

theorem foldl_insert_nodup {vols : List UInt32} : ∀ {l : List UInt32}, l.Nodup →
    (vols.foldl (fun l vol => l.insert vol) l).Nodup := by
  induction vols with
  | nil => exact id
  | cons v vols ih => exact fun h => ih (h.insert)

theorem mem_availableVolumes {havevols : List UInt32} {f : NntpFile} (hone : OneVolume par basenames f) {vol : UInt32} :
    vol ∈ availableVolumes par havevols f.subject basenames ↔ volumeOf par basenames f = some vol ∧ vol ∉ havevols := by
  unfold availableVolumes
  simp only [List.mem_filter, List.mem_filterMap, Option.map_eq_some_iff, decide_eq_true_eq]
  refine and_congr_left fun _ => ⟨?_, exists_of_volumeOf⟩
  rintro ⟨basename, hmem, ext, hmatch, rfl⟩
  exact hone basename hmem ext hmatch

/-- The count falls short exactly where the volumes counted and the new volumes of the other files do. -/
theorem countVolumes_lt {num : Int} {havevols : List UInt32} : ∀ (fs : List NntpFile) (availvols : List UInt32),
    availvols.Nodup → (∀ f ∈ fs, OneVolume par basenames f) →
      ((countVolumes par num havevols basenames fs availvols).length < num ↔
        ((availvols.toFinset ∪ newVolumes par basenames havevols fs).card : Int) < num)
  | [], availvols, hnodup, _ => by simp [countVolumes, newVolumes, List.toFinset_card_of_nodup hnodup]
  | f :: fs, availvols, hnodup, hone => by
    rw [List.forall_mem_cons] at hone
    unfold countVolumes
    split
    · rw [countVolumes_lt fs _ (foldl_insert_nodup hnodup) hone.2]
      have hvolumes : ((availableVolumes par havevols f.subject basenames).foldl (fun vols vol => vols.insert vol)
          availvols).toFinset ∪ newVolumes par basenames havevols fs =
            availvols.toFinset ∪ newVolumes par basenames havevols (f :: fs) := by
        ext v
        simp only [mem_union, List.mem_toFinset, mem_foldl_insert, mem_availableVolumes hone.1, newVolumes, mem_sdiff,
          List.mem_filterMap, List.mem_cons, exists_eq_or_imp]
        tauto
      rw [hvolumes]
    · next hmore =>
      have hle := card_le_card (@subset_union_left _ _ availvols.toFinset (newVolumes par basenames havevols (f :: fs)))
      rw [List.toFinset_card_of_nodup hnodup] at hle
      omega

/-! ### The call -/

/-- What `get_pxxs` queues and keeps: so many files as there are new volumes, up to the number wanted, or none in
    optimistic mode where there are not enough; each with a volume of its own that is not held; and what is queued is
    what left the list. -/
structure SelectsVolumes (par : ParOutside W) (num : Int) (havevols : List UInt32) (basenames : List Text) (info : ParXInfo)
    (r : Int × List NntpFile × ParXInfo) : Prop where
  count : r.1 = if par.autoparOptimistic ∧ ((newVolumes par basenames havevols info.serverpxxs).card : Int) < num then 0
    else min num (newVolumes par basenames havevols info.serverpxxs).card
  queued : (r.2.1.length : Int) = r.1
  fresh : ∀ f ∈ r.2.1, ∃ vol, volumeOf par basenames f = some vol ∧ vol ∉ havevols
  distinct : r.2.1.Pairwise fun f g => volumeOf par basenames f ≠ volumeOf par basenames g
  removed : (↑r.2.1 : Multiset NntpFile) + ↑r.2.2.serverpxxs = ↑info.serverpxxs
  others : r.2.2 = { info with serverpxxs := r.2.2.serverpxxs }

/-- `get_pxxs` queues one file for each of so many new volumes as are wanted and offered. -/
theorem getPxxs_selects {W : Type} (par : ParOutside W) (num : Int) (havevols : List UInt32) (key : Text) (info : ParXInfo)
    (hnum : 0 ≤ num) (hone : ∀ f ∈ info.serverpxxs, OneVolume par (info.localpars.basenames key) f) :
    SelectsVolumes par num havevols (info.localpars.basenames key) info (getPxxs par num havevols key info) := by
  have hcount := @countVolumes_lt _ par (info.localpars.basenames key) num havevols info.serverpxxs [] List.nodup_nil hone
  rw [List.toFinset_nil, empty_union] at hcount
  unfold getPxxs
  dsimp only
  split
  · next hgiveup =>
    rw [Bool.and_eq_true, decide_eq_true_eq, hcount] at hgiveup
    exact ⟨(if_pos hgiveup).symm, rfl, nofun, List.Pairwise.nil, by simp, rfl⟩
  · next hgo =>
    rw [Bool.and_eq_true, decide_eq_true_eq, hcount] at hgo
    obtain ⟨htaken, hfresh, hdistinct⟩ := takePxxs_takesNew info.serverpxxs 0 havevols hnum hone
    rw [sub_zero] at htaken
    exact ⟨by rw [if_neg hgo]; exact htaken, rfl, hfresh, hdistinct, takePxxs_coe info.serverpxxs 0 havevols, rfl⟩

/-- Three posts of two volumes, one of them held, and a file of another set. -/
def volumePosts : ParOutside Unit :=
  { samplePar with
    autoparOptimistic := true
    subjmatchPar1 := fun basename subject => if basename = "a".toList ∧
      subject.take 2 = "a.".toList then some (subject.drop 3) else none }

def volumePostsInfo : ParXInfo :=
  { path := [], temppath := [], localpars := { subjmatches := [("k".toList, "a".toList)] }
    serverpxxs := ["a.p01", "a.p02", "b.p03", "a.p02"].map fun subject =>
      { (default : NntpFile) with subject := subject.toList } }

theorem getPxxs_selects_posts :
    SelectsVolumes volumePosts 1 [1] (volumePostsInfo.localpars.basenames "k".toList) volumePostsInfo
      (getPxxs volumePosts 1 [1] "k".toList volumePostsInfo) :=
  getPxxs_selects volumePosts 1 [1] "k".toList volumePostsInfo (by decide) fun f hf basename hmem ext hmatch => by
    have hbase : volumePostsInfo.localpars.basenames "k".toList = ["a".toList] := by decide
    rw [hbase] at hmem ⊢
    rw [List.mem_singleton] at hmem
    subst hmem
    rw [volumeOf, List.findSome?_cons, hmatch]
    rfl

end Nget
