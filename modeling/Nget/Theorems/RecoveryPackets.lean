import Nget.Theorems.Knapsack
import Nget.Theorems.ParRetrieval

/-! What `get_recoverypackets` picks. The candidates are listed by file and by basename, and a least cover of the number
    wanted is picked from them: the assertions about the picks hold because no pick of a least cover can be dropped. The
    picks are erased from the list by their places, so a file that is a candidate twice can be queued twice. -/

open Finset

namespace Nget
open CString

variable {W : Type} {par : ParOutside W} {info : ParXInfo} {num : Int} {cs : List Candidate}

/-- The candidates that `knapsack_minsize` picks, in the order of its result set. -/
def Candidate.picks (num : Int) (cs : List Candidate) : List Candidate :=
  (knapsackMinsize (cs.map (·.value)) (cs.map (·.size)) num).2.filterMap (cs[·]?)

/-! ### The assertions -/

theorem fileCandidates_value {havepackets : List UInt32} {item : Nat} {f : NntpFile} :
    ∀ (basenames : List Text) (availpackets : List UInt32),
      ∀ c ∈ (fileCandidates par havepackets item f basenames availpackets).1, 0 < c.value
  | [], _, c, hc => by cases hc
  | basename :: basenames, availpackets, c, hc => by
    unfold fileCandidates at hc
    split at hc
    · dsimp only at hc
      split at hc
      · exact fileCandidates_value basenames _ c hc
      · next hne =>
        rcases List.mem_cons.mp hc with rfl | hc
        · rw [List.isEmpty_iff, ← List.length_eq_zero_iff] at hne
          dsimp only
          split <;> omega
        · exact fileCandidates_value basenames _ c hc
    · exact fileCandidates_value basenames _ c hc

theorem candidates_value {havepackets : List UInt32} {basenames : List Text} :
    ∀ (item : Nat) (fs : List NntpFile) (availpackets : List UInt32),
      ∀ c ∈ (candidates par havepackets basenames item fs availpackets).1, 0 < c.value
  | item, [], _, c, hc => by cases hc
  | item, f :: fs, availpackets, c, hc => by
    unfold candidates at hc
    dsimp only at hc
    rcases List.mem_append.mp hc with hc | hc
    · exact fileCandidates_value basenames availpackets c hc
    · exact candidates_value (item + 1) fs _ c hc

/-- The items of `knapsack_minsize` are places of the list, their size is what it returns, and without any one of them the
    others fall short. -/
structure Needed (values sizes : List Int) (target : Int) (r : Int × List Nat) : Prop where
  nodup : r.2.Nodup
  lt : ∀ i ∈ r.2, i < values.length
  size : (r.2.map (item sizes)).sum = r.1
  short : ∀ i ∈ r.2, (r.2.map (item values)).sum - item values i < target

theorem knapsackMinsize_nodup {values sizes : List Int} {target : Int} :
    (knapsackMinsize values sizes target).2.Nodup := List.nodup_range.filter _

theorem Needed.of_minsize {values sizes : List Int} {target : Int} (hlen : values.length = sizes.length)
    (hv : ∀ v ∈ values, 0 < v) (hs : ∀ s ∈ sizes, 0 < s) :
    Needed values sizes target (knapsackMinsize values sizes target) := by
  have hnodup := @knapsackMinsize_nodup values sizes target
  rcases lt_or_ge values.sum target with hall | hreach
  · rw [knapsackMinsize_all hall] at hnodup ⊢
    have hsum : ∀ l : List Int, ((List.range l.length).map (item l)).sum = l.sum := fun l => by
      rw [← sum_item l, ← List.sum_toFinset _ List.nodup_range, List.toFinset_range]
    refine ⟨hnodup, fun i => List.mem_range.mp, by rw [hlen]; exact hsum sizes, fun i hi => ?_⟩
    have := item_pos hv i (List.mem_range.mp hi)
    rw [hsum]
    omega
  · obtain ⟨hindices, -, hsize, -, hminimal⟩ := LeastCover.of_minsize hlen hv hs hreach
    generalize knapsackMinsize values sizes target = r at *
    rw [List.sum_toFinset _ hnodup] at hsize
    refine ⟨hnodup, fun i hi => mem_range.mp (hindices (List.mem_toFinset.mpr hi)), hsize, fun i hi => ?_⟩
    have h := hminimal i hi
    rwa [sum_erase_eq_sub (List.mem_toFinset.mpr hi), List.sum_toFinset _ hnodup] at h

theorem map_filterMap_getElem? (g : Candidate → Int) :
    ∀ (is : List Nat), (∀ i ∈ is, i < cs.length) → (is.filterMap (cs[·]?)).map g = is.map (item (cs.map g))
  | [], _ => rfl
  | i :: is, h => by
    rw [List.forall_mem_cons] at h
    have hitem : item (cs.map g) i = g cs[i] := by simp [item, h.1]
    rw [List.filterMap_cons_some (List.getElem?_eq_getElem h.1), List.map_cons, List.map_cons, hitem,
      map_filterMap_getElem? g is h.2]

/-- The assertions of `get_recoverypackets`: before each pick the values of those before it are below the number wanted,
    and the sizes of the picks leave nothing of the size that `knapsack_minsize` returns. -/
structure Asserted (num : Int) (cs : List Candidate) : Prop where
  before : ∀ before c after, Candidate.picks num cs = before ++ c :: after → (before.map (·.value)).sum < num
  left : (knapsackMinsize (cs.map (·.value)) (cs.map (·.size)) num).1 - ((Candidate.picks num cs).map (·.size)).sum = 0

theorem Asserted.of_pos (hv : ∀ c ∈ cs, 0 < c.value) (hs : ∀ c ∈ cs, 0 < c.size) : Asserted num cs := by
  have hneeded := @Needed.of_minsize (cs.map (·.value)) (cs.map (·.size)) num (by simp)
    (List.forall_mem_map.mpr hv) (List.forall_mem_map.mpr hs)
  have hpos := item_pos (List.forall_mem_map.mpr hv)
  constructor
  · intro before c after h
    have hvalues := map_filterMap_getElem? (·.value) _ fun i hi => by simpa using hneeded.lt i hi
    rw [Candidate.picks] at h
    rw [h, List.map_append, List.map_cons] at hvalues
    generalize knapsackMinsize (cs.map (·.value)) (cs.map (·.size)) num = r at *
    -- The places of the picks, split as the picks are.
    obtain ⟨is, js, hr, hbefore, hjs⟩ := List.map_eq_append_iff.mp hvalues.symm
    obtain ⟨i, ks, rfl, -, -⟩ := List.map_eq_cons_iff.mp hjs
    have hshort := hneeded.short i (by simp [hr])
    have hks : 0 ≤ (ks.map (item (cs.map (·.value)))).sum := List.sum_nonneg fun x hx => by
      obtain ⟨k, hk, rfl⟩ := List.mem_map.mp hx
      exact (hpos k (hneeded.lt k (by simp [hr, hk]))).le
    rw [hr, List.map_append, List.map_cons, List.sum_append, List.sum_cons, hbefore] at hshort
    omega
  · rw [Candidate.picks, map_filterMap_getElem? (·.size) _ fun i hi => by simpa using hneeded.lt i hi, hneeded.size, sub_self]

/-- `knapsack_minsize` finds a least cover, or takes all when there is none, so what `get_recoverypackets` asserts holds. -/
theorem knapsackMinsize_leastCover :
    (∀ (values sizes : List Int) (target : Int), values.length = sizes.length → (∀ v ∈ values, 0 < v) →
      (∀ s ∈ sizes, 0 < s) → 0 < target →
        (target ≤ values.sum → LeastCover values sizes target (knapsackMinsize values sizes target)) ∧
        (values.sum < target → knapsackMinsize values sizes target = (sizes.sum, List.range values.length))) ∧
    ∀ (W : Type) (par : ParOutside W) (num : Int) (havepackets : List UInt32) (key : Text) (info : ParXInfo), 0 < num →
      (∀ c ∈ (candidates par havepackets (info.localpars.basenames key) 0 info.serverpxxs []).1, 0 < c.size) →
        Asserted num (candidates par havepackets (info.localpars.basenames key) 0 info.serverpxxs []).1 :=
  ⟨fun _ _ _ hlen hv hs _ => ⟨LeastCover.of_minsize hlen hv hs, knapsackMinsize_all⟩,
    fun _ _ _ _ _ _ _ hs => Asserted.of_pos (candidates_value 0 _ _) hs⟩

/-- Two files of one set, with the packets that their subjects say. -/
def twoVolumes : ParOutside Unit :=
  { samplePar with
    subjmatchPar2 := fun _ subject =>
      if subject = "a.vol0+2.par2".toList then some (".vol0+2".toList, "0".toList, "2".toList)
      else if subject = "a.vol2+4.par2".toList then some (".vol2+4".toList, "2".toList, "4".toList) else none }

def twoVolumesInfo : ParXInfo :=
  { path := [], temppath := [], localpars := { subjmatches := [("k".toList, "a".toList)] }
    serverpxxs := [{ (default : NntpFile) with subject := "a.vol0+2.par2".toList },
      { (default : NntpFile) with subject := "a.vol2+4.par2".toList }] }

theorem knapsackMinsize_leastCover_test :
    LeastCover [8, 8, 7, 7, 7] [8, 8, 7, 7, 7] 9 (knapsackMinsize [8, 8, 7, 7, 7] [8, 8, 7, 7, 7] 9) ∧
      knapsackMinsize [8, 8] [7, 7] 17 = (14, [0, 1]) ∧
      Asserted 3 (candidates twoVolumes [] ["a".toList] 0 twoVolumesInfo.serverpxxs []).1 :=
  ⟨(knapsackMinsize_leastCover.1 [8, 8, 7, 7, 7] [8, 8, 7, 7, 7] 9 rfl (by decide) (by decide) (by decide)).1 (by decide),
    (knapsackMinsize_leastCover.1 [8, 8] [7, 7] 17 rfl (by decide) (by decide) (by decide)).2 (by decide),
    knapsackMinsize_leastCover.2 Unit twoVolumes 3 [] "k".toList twoVolumesInfo (by decide) (by decide +kernel)⟩

/-! ### The packets of the candidates -/

theorem packetRange_nodup {beginpacket endpacket : UInt32} : (packetRange beginpacket endpacket).Nodup := by
  have hlt : ∀ i ∈ List.range (endpacket.toNat - beginpacket.toNat), i < 4294967296 := fun i hi => by
    have := List.mem_range.mp hi
    have := endpacket.toNat_lt
    omega
  refine List.Nodup.map_on (fun i hi j hj hij => ?_) List.nodup_range
  have hnat := congrArg UInt32.toNat ((UInt32.add_right_inj beginpacket).mp hij)
  rwa [UInt32.toNat_ofNat_of_lt' (hlt i hi), UInt32.toNat_ofNat_of_lt' (hlt j hj)] at hnat

/-- The packets available are those of the candidates, and each is counted once. -/
theorem fileCandidates_packets {havepackets : List UInt32} {item : Nat} {f : NntpFile} :
    ∀ (basenames : List Text) (availpackets : List UInt32),
      (fileCandidates par havepackets item f basenames availpackets).2 =
          availpackets ++ (fileCandidates par havepackets item f basenames availpackets).1.flatMap (·.packets) ∧
        (availpackets.Nodup → (fileCandidates par havepackets item f basenames availpackets).2.Nodup)
  | [], availpackets => ⟨by simp [fileCandidates], id⟩
  | basename :: basenames, availpackets => by
    unfold fileCandidates
    split
    · next vol first count _ =>
      dsimp only
      have hrange : (packetRange (atoi first).toUInt32 ((atoi count).toUInt32 + (atoi first).toUInt32)).Nodup :=
        packetRange_nodup
      generalize packetRange (atoi first).toUInt32 ((atoi count).toUInt32 + (atoi first).toUInt32) = range at hrange ⊢
      generalize hpackets : (range.filter fun p => p ∉ havepackets && p ∉ availpackets) = packets
      have hnew : availpackets.Nodup → (availpackets ++ packets).Nodup := fun h => by
        subst hpackets
        refine List.nodup_append.mpr ⟨h, hrange.filter _, fun p hp q hq => ?_⟩
        rintro rfl
        simp [hp] at hq
      obtain ⟨hall, hnodup⟩ := fileCandidates_packets basenames (availpackets ++ packets)
      split
      · next hempty =>
        obtain rfl := List.isEmpty_iff.mp hempty
        exact ⟨by rw [hall, List.append_nil], fun h => hnodup (hnew h)⟩
      · exact ⟨by rw [hall, List.flatMap_cons, List.append_assoc], fun h => hnodup (hnew h)⟩
    · exact fileCandidates_packets basenames availpackets

theorem candidates_packets {havepackets : List UInt32} {basenames : List Text} :
    ∀ (item : Nat) (fs : List NntpFile) (availpackets : List UInt32),
      (candidates par havepackets basenames item fs availpackets).2 =
          availpackets ++ (candidates par havepackets basenames item fs availpackets).1.flatMap (·.packets) ∧
        (availpackets.Nodup → (candidates par havepackets basenames item fs availpackets).2.Nodup)
  | item, [], availpackets => ⟨by simp [candidates], id⟩
  | item, f :: fs, availpackets => by
    unfold candidates
    dsimp only
    obtain ⟨hhere, hnodup⟩ := @fileCandidates_packets _ par havepackets item f basenames availpackets
    generalize fileCandidates par havepackets item f basenames availpackets = here at hhere hnodup ⊢
    obtain ⟨hlater, hnodup'⟩ := @candidates_packets havepackets basenames (item + 1) fs here.2
    exact ⟨by rw [hlater, hhere, List.flatMap_append, List.append_assoc], fun h => hnodup' (hnodup h)⟩

theorem candidates_counted {havepackets : List UInt32} {basenames : List Text} {fs : List NntpFile} :
    ((candidates par havepackets basenames 0 fs []).1.flatMap (·.packets)).Nodup := by
  obtain ⟨hall, hnodup⟩ := @candidates_packets _ par havepackets basenames 0 fs []
  rw [List.nil_append] at hall
  exact hall ▸ hnodup List.nodup_nil

/-! ### What a call queues -/

/-- The candidates whose files a call of `get_recoverypackets` queues: none when it gets extra data or gives up. -/
def recoveryPicks (par : ParOutside W) (num : Int) (havepackets : List UInt32) (key : Text) (par2 : Par2Repairer)
    (info : ParXInfo) : List Candidate :=
  let (cs, availpackets) := candidates par havepackets (info.localpars.basenames key) 0 info.serverpxxs []
  let r := if (availpackets.length : Int) < num then (getExtradata par (num - availpackets.length) par2 info).1 else 0
  if r ≠ 0 then [] else if par.autoparOptimistic && (availpackets.length : Int) < num then [] else Candidate.picks num cs

theorem eraseItems_nil {l : List NntpFile} : eraseItems l [] = l := by
  unfold eraseItems
  rw [List.filter_eq_self.mpr (by simp), filterMap_range_getElem?]

theorem getExtradata_kept {num : Int} {par2 : Par2Repairer} :
    ∃ kept, (getExtradata par num par2 info).2.2 = { info with serverextradata := kept } ∧
      (↑(getExtradata par num par2 info).2.1 : Multiset NntpFile) + ↑kept = ↑info.serverextradata := by
  unfold getExtradata
  dsimp only
  split
  · exact ⟨info.serverextradata, rfl, by simp⟩
  · exact ⟨_, rfl, takeExtradata_coe info.serverextradata 0⟩

/-- A call queues extra data, which leaves its list, and then the files of its picks, whose places are erased. -/
theorem getRecoverypackets_picks {num : Int} {havepackets : List UInt32} {key : Text} {par2 : Par2Repairer} :
    ∃ extradata kept : List NntpFile, (↑extradata : Multiset NntpFile) + ↑kept = ↑info.serverextradata ∧
      (getRecoverypackets par num havepackets key par2 info).2 =
        (extradata ++ (recoveryPicks par num havepackets key par2 info).filterMap (info.serverpxxs[·.item]?),
          { info with
            serverextradata := kept
            serverpxxs := eraseItems info.serverpxxs ((recoveryPicks par num havepackets key par2 info).map (·.item)) }) := by
  unfold getRecoverypackets recoveryPicks
  generalize candidates par havepackets (info.localpars.basenames key) 0 info.serverpxxs [] = cs
  obtain ⟨cs, availpackets⟩ := cs
  dsimp only
  have hgot : ∃ (r : Int) (extradata kept : List NntpFile),
      (↑extradata : Multiset NntpFile) + ↑kept = ↑info.serverextradata ∧
      (if (availpackets.length : Int) < num then (getExtradata par (num - availpackets.length) par2 info).1 else 0) = r ∧
      (if (availpackets.length : Int) < num then getExtradata par (num - availpackets.length) par2 info else (0, [], info)) =
        (r, extradata, { info with serverextradata := kept }) := by
    split
    · obtain ⟨kept, hinfo, hkept⟩ := @getExtradata_kept _ par info (num - availpackets.length) par2
      exact ⟨_, _, kept, hkept, rfl, by rw [← hinfo]⟩
    · exact ⟨0, [], info.serverextradata, by simp, rfl, rfl⟩
  -- The extra data that is got first.
  obtain ⟨r, extradata, kept, hkept, hr, hgot⟩ := hgot
  rw [hgot, hr]
  refine ⟨extradata, kept, hkept, ?_⟩
  dsimp only
  split
  · simp [eraseItems_nil]
  · split
    · simp [eraseItems_nil]
    · rfl

theorem recoveryPicks_sublist {num : Int} {havepackets : List UInt32} {key : Text} {par2 : Par2Repairer} :
    (recoveryPicks par num havepackets key par2 info).Sublist
      (candidates par havepackets (info.localpars.basenames key) 0 info.serverpxxs []).1 := by
  unfold recoveryPicks
  dsimp only
  split_ifs <;> first | exact List.nil_sublist _ | exact results_sublist (by simp)

/-- What a call did with the files: the files queued are extra data that left its list and recovery files that left
    theirs, each place of the list is erased once at most, and no packet is counted for two candidates. -/
structure Conserved (info : ParXInfo) (cs picks : List Candidate) (r : Int × List NntpFile × ParXInfo) : Prop where
  queued : ∃ extradata, r.2.1 = extradata ++ picks.filterMap (info.serverpxxs[·.item]?) ∧
    (↑extradata : Multiset NntpFile) + ↑r.2.2.serverextradata = ↑info.serverextradata
  removed : (↑(picks.filterMap (info.serverpxxs[·.item]?)) : Multiset NntpFile) + ↑r.2.2.serverpxxs = ↑info.serverpxxs
  erased : (picks.map (·.item)).Nodup
  counted : (cs.flatMap (·.packets)).Nodup

/-- Every call conserves the files, whatever the number wanted and what the repairer has found. -/
def Conserves (par : ParOutside W) (havepackets : List UInt32) (key : Text) (info : ParXInfo) : Prop :=
  ∀ (num : Int) (par2 : Par2Repairer), Conserved info
    (candidates par havepackets (info.localpars.basenames key) 0 info.serverpxxs []).1
    (recoveryPicks par num havepackets key par2 info) (getRecoverypackets par num havepackets key par2 info)

theorem Conserved.of_nodup {num : Int} {havepackets : List UInt32} {key : Text} {par2 : Par2Repairer}
    (h : ((recoveryPicks par num havepackets key par2 info).map (·.item)).Nodup) :
    Conserved info (candidates par havepackets (info.localpars.basenames key) 0 info.serverpxxs []).1
      (recoveryPicks par num havepackets key par2 info) (getRecoverypackets par num havepackets key par2 info) := by
  obtain ⟨extradata, kept, hkept, hcall⟩ := @getRecoverypackets_picks _ par info num havepackets key par2
  have hrange := (@candidates_offeredOnce _ par havepackets (info.localpars.basenames key) 0 info.serverpxxs [] havepackets
    (by simp)).2
  have herase := eraseItems_coe h fun i hi => by
    obtain ⟨c, hc, rfl⟩ := List.mem_map.mp hi
    simpa using (hrange c (recoveryPicks_sublist.subset hc)).2
  rw [List.filterMap_map] at herase
  refine ⟨⟨extradata, ?_, ?_⟩, ?_, h, candidates_counted⟩
  · rw [hcall]
  · rw [hcall]
    exact hkept
  · rw [hcall]
    exact herase

theorem takeExtradata_none {num : Int} : ∀ (fs : List NntpFile) (added : Int), (takeExtradata par num {} fs added).1 = added
  | [], _ => rfl
  | f :: fs, added => by
    unfold takeExtradata
    split
    · exact takeExtradata_none fs added
    · rfl

/-- With more wanted than there is and no extra data, every candidate is picked. -/
theorem recoveryPicks_all {havepackets : List UInt32} {key : Text} (hoptimistic : par.autoparOptimistic = false) :
    ∃ num, recoveryPicks par num havepackets key {} info =
      (candidates par havepackets (info.localpars.basenames key) 0 info.serverpxxs []).1 := by
  unfold recoveryPicks
  generalize candidates par havepackets (info.localpars.basenames key) 0 info.serverpxxs [] = r
  obtain ⟨cs, availpackets⟩ := r
  have hextra : ∀ num, (getExtradata par num {} info).1 = 0 := fun num => by
    unfold getExtradata
    simp [hoptimistic, takeExtradata_none]
  have hall := @knapsackMinsize_all (cs.map (·.value)) (cs.map (·.size)) ((cs.map (·.value)).sum + 1) (by omega)
  refine ⟨(cs.map (·.value)).sum + 1, ?_⟩
  simp only [hextra, ite_self, hoptimistic, Bool.false_and, ne_eq, not_true_eq_false, if_false, Bool.false_eq_true,
    Candidate.picks, hall, List.length_map]
  exact filterMap_range_getElem? cs

/-- The recovery files are conserved by every call, optimistic or not, exactly where each file is offered once. -/
theorem getRecoverypackets_conserves_iff (par : ParOutside W) (havepackets : List UInt32) (key : Text) (info : ParXInfo) :
    (∀ optimistic, Conserves { par with autoparOptimistic := optimistic } havepackets key info) ↔
      OfferedOnce (packetRanges par.subjmatchPar2 (info.localpars.basenames key)) havepackets info.serverpxxs := by
  have honce := fun optimistic => (@candidates_offeredOnce _ { par with autoparOptimistic := optimistic } havepackets
    (info.localpars.basenames key) 0 info.serverpxxs [] havepackets (by simp)).1
  constructor
  · intro h
    obtain ⟨num, hall⟩ := @recoveryPicks_all _ { par with autoparOptimistic := false } info havepackets key rfl
    have herased := (h false num {}).erased
    rw [hall] at herased
    exact (honce false).mp herased
  · intro h optimistic num par2
    exact Conserved.of_nodup (((honce optimistic).mpr h).sublist (recoveryPicks_sublist.map _))

/-- A file whose subject has the names of two basenames of the set, with a range each. -/
def twoBasenames : ParOutside Unit :=
  { samplePar with
    subjmatchPar2 := fun basename _ =>
      if basename = "a".toList then some (".vol0+1".toList, "0".toList, "1".toList)
      else some (".vol1+1".toList, "1".toList, "1".toList) }

def twoBasenamesInfo : ParXInfo :=
  { path := [], temppath := []
    localpars := { subjmatches := [("k".toList, "a".toList), ("k".toList, "b".toList)] }
    serverpxxs := [{ (default : NntpFile) with subject := "a.vol0+1.par2 b.vol1+1.par2".toList }] }

/-- The file is queued twice. -/
theorem getRecoverypackets_conserves_fails :
    ¬∀ (par : ParOutside Unit) (havepackets : List UInt32) (key : Text) (info : ParXInfo),
      Conserves par havepackets key info := by
  intro h
  have hrange : (recoveryPicks twoBasenames 2 [] "k".toList {} twoBasenamesInfo).map (·.item) = [0, 0] := by decide +kernel
  have herased := (h twoBasenames [] "k".toList twoBasenamesInfo 2 {}).erased
  rw [hrange] at herased
  exact absurd herased (by decide)

end Nget
