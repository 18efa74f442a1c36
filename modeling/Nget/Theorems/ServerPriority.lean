import Nget.Servers

/-! The order in which the servers are tried for an article. -/

namespace Nget

variable {σ : Type} [DecidableEq σ]

/-! ### The map -/

namespace Prioritized
variable {e : Prio × RealServerArticle σ} {sap : Prioritized σ}

/-- The greatest key comes first. -/
abbrev Desc (sap : Prioritized σ) : Prop := sap.Pairwise fun a b => b.1 ≤ a.1

instance : IsTrans (Prio × RealServerArticle σ) fun a b => b.1 ≤ a.1 := ⟨fun _ _ _ hab hbc => hbc.trans hab⟩

omit [DecidableEq σ] in
theorem insert_perm : (sap.insert e).Perm (e :: sap) := SortedList.insertUpper_perm

omit [DecidableEq σ] in
theorem Desc.insert (h : Desc sap) : Desc (sap.insert e) :=
  @SortedList.pairwise_insertUpper _ (fun a b => b.1 ≤ a.1) _ (fun e a => a.1 < e.1) e
    (fun _ ha => le_of_lt (of_decide_eq_true ha)) (fun _ ha => le_of_not_gt (of_decide_eq_false ha)) sap h

theorem Desc.erase (h : Desc sap) : Desc (sap.erase e) := List.Pairwise.sublist List.eraseP_sublist h

omit [DecidableEq σ] in
theorem equalRange_perm {prio : ℚ} : sap.Perm (sap.equalRange prio ++ sap.filter fun e => !decide (e.1.val = prio)) :=
  (List.filter_append_perm _ sap).symm

theorem erase_perm (hsap : (sap.map (·.2)).Nodup) (he : e ∈ sap) : sap.Perm (e :: sap.erase e) := by
  obtain ⟨a, l, l', -, ha, heq, herase⟩ := List.exists_of_eraseP he (p := fun a => a.2 = e.2) (by simp)
  have hmem : a ∈ sap := heq ▸ List.mem_append_right _ List.mem_cons_self
  obtain rfl : a = e := List.inj_on_of_nodup_map hsap hmem he (by simpa using ha)
  rw [erase, herase]
  conv_lhs => rw [heq]
  exact List.perm_middle

end Prioritized

namespace ServerChoice
variable {st : ServerChoice σ} {part : NntpPart} {sap : Prioritized σ} {d : Bool}

/-! ### The pairs that are tried -/

/-- The server may be asked for an article of the part. -/
def Eligible (st : ServerChoice σ) (part : NntpPart) (c : RealServerArticle σ) : Prop :=
  part.articles[c.place]? = some c.sa ∧ (c.sa.serverid, c.server) ∈ st.nconfig.serv ∧ ∀ host ∈ st.forceHost, host = c.server

/-- The pairs of an article at its place. -/
def pairsOf (st : ServerChoice σ) (a : NntpServerArticle × Nat) : List (RealServerArticle σ) :=
  ((st.nconfig.getservers a.1.serverid).filter fun s => !st.forceHost.any (· ≠ s)).map fun s => ⟨a.1, a.2, s⟩

/-- A pair with its priority. -/
def keyed (st : ServerChoice σ) (d : Bool) (c : RealServerArticle σ) :
    Prio × RealServerArticle σ := (st.prio d c.sa c.server, c)

theorem mem_pairsOf {a : NntpServerArticle × Nat} {c : RealServerArticle σ} : c ∈ st.pairsOf a ↔
    (c.sa, c.place) = a ∧ (c.sa.serverid, c.server) ∈ st.nconfig.serv ∧ ∀ host ∈ st.forceHost, host = c.server := by
  have hforce : ∀ s, (!st.forceHost.any (· ≠ s)) = true ↔ ∀ host ∈ st.forceHost, host = s := fun s => by
    cases st.forceHost <;> simp
  unfold pairsOf ServerConfig.getservers
  simp only [List.mem_map, List.mem_filter, hforce, decide_eq_true_eq]
  constructor
  · rintro ⟨s, ⟨⟨⟨id, s'⟩, ⟨hmem, rfl⟩, rfl⟩, hhost⟩, rfl⟩
    exact ⟨rfl, hmem, hhost⟩
  · rintro ⟨rfl, hmem, hhost⟩
    exact ⟨c.server, ⟨⟨(c.sa.serverid, c.server), ⟨hmem, rfl⟩, rfl⟩, hhost⟩, rfl⟩

theorem nodup_pairsOf {a : NntpServerArticle × Nat} : (st.pairsOf a).Nodup := by
  have hservers : (st.nconfig.getservers a.1.serverid).Nodup := st.nconfig.distinct.sublist (List.filter_sublist.map _)
  exact (hservers.filter _).map fun s s' heq => (RealServerArticle.mk.inj heq).2.2

theorem nodup_pairs : (part.articles.zipIdx.flatMap st.pairsOf).Nodup := by
  refine List.nodup_flatMap.mpr ⟨fun a _ => nodup_pairsOf, ?_⟩
  refine (List.pairwise_map.mp (List.nodup_zipIdx_map_snd part.articles)).imp fun hne c hc hc' => hne ?_
  rw [← (mem_pairsOf.mp hc).1, ← (mem_pairsOf.mp hc').1]

theorem mem_pairs {c : RealServerArticle σ} : c ∈ part.articles.zipIdx.flatMap st.pairsOf ↔ st.Eligible part c := by
  simp only [List.mem_flatMap, mem_pairsOf, Eligible]
  constructor
  · rintro ⟨a, ha, rfl, h⟩
    exact ⟨List.mk_mem_zipIdx_iff_getElem?.mp ha, h⟩
  · rintro ⟨ha, h⟩
    exact ⟨_, List.mk_mem_zipIdx_iff_getElem?.mpr ha, rfl, h⟩

theorem prioritizeServers_perm {sa : NntpServerArticle} {place : Nat} : ∀ {servers : List σ} {sap : Prioritized σ},
    (st.prioritizeServers d sa place servers sap).Perm
      (sap ++ ((servers.filter fun s => !st.forceHost.any (· ≠ s)).map fun s => ⟨sa, place, s⟩).map (st.keyed d))
  | [], sap => by simp [prioritizeServers]
  | s :: servers, sap => by
    unfold prioritizeServers
    split
    · next hskip =>
      rw [List.filter_cons_of_neg (by simpa using hskip)]
      exact prioritizeServers_perm
    · next htake =>
      rw [List.filter_cons_of_pos (by simpa using htake)]
      refine prioritizeServers_perm.trans ?_
      exact (Prioritized.insert_perm.append_right _).trans List.perm_middle.symm

theorem prioritizeArticles_perm : ∀ {articles : List (NntpServerArticle × Nat)} {sap : Prioritized σ},
    (st.prioritizeArticles d articles sap).Perm (sap ++ (articles.flatMap st.pairsOf).map (st.keyed d))
  | [], sap => by simp [prioritizeArticles]
  | (sa, place) :: articles, sap => by
    rw [prioritizeArticles, List.flatMap_cons, List.map_append, ← List.append_assoc]
    exact prioritizeArticles_perm.trans (prioritizeServers_perm.append_right _)

theorem desc_prioritizeServers {sa : NntpServerArticle} {place : Nat} : ∀ {servers : List σ} {sap : Prioritized σ},
    sap.Desc → (st.prioritizeServers d sa place servers sap).Desc
  | [], _, h => h
  | s :: servers, sap, h => by
    unfold prioritizeServers
    split
    · exact desc_prioritizeServers h
    · exact desc_prioritizeServers h.insert

theorem desc_prioritizeArticles : ∀ {articles : List (NntpServerArticle × Nat)} {sap : Prioritized σ},
    sap.Desc → (st.prioritizeArticles d articles sap).Desc
  | [], _, h => h
  | (sa, place) :: articles, sap, h => by
    rw [prioritizeArticles]
    exact desc_prioritizeArticles (desc_prioritizeServers h)

/-- The map that the loops fill. -/
def filled (st : ServerChoice σ) (part : NntpPart) : Prioritized σ := st.prioritizeArticles true part.articles.zipIdx []

theorem filled_perm : (st.filled part).Perm ((part.articles.zipIdx.flatMap st.pairsOf).map (st.keyed true)) := by
  simpa [filled] using @prioritizeArticles_perm _ _ st true part.articles.zipIdx []

theorem desc_filled : (st.filled part).Desc := desc_prioritizeArticles List.Pairwise.nil

theorem filled_pairs_perm : ((st.filled part).map (·.2)).Perm (part.articles.zipIdx.flatMap st.pairsOf) := by
  have h := (@filled_perm _ _ st part).map (·.2)
  rwa [List.map_map, show (fun e : Prio × RealServerArticle σ => e.2) ∘ st.keyed true = id from rfl, List.map_id] at h

theorem mem_filled {e : Prio × RealServerArticle σ} :
    e ∈ st.filled part ↔ st.Eligible part e.2 ∧ e.1 = st.prio true e.2.sa e.2.server := by
  rw [filled_perm.mem_iff, List.mem_map]
  constructor
  · rintro ⟨c, hc, rfl⟩
    exact ⟨mem_pairs.mp hc, rfl⟩
  · rintro ⟨hc, hprio⟩
    exact ⟨e.2, mem_pairs.mpr hc, Prod.ext hprio.symm rfl⟩

/-! ### The connected servers put back -/

/-- An element as `reprioritize` leaves it. -/
def putBack (st : ServerChoice σ) (e : Prio × RealServerArticle σ) : Prio × RealServerArticle σ :=
  if st.isConnected e.2.server then (e.1 * aBitHigher, e.2) else e

omit [DecidableEq σ] in
theorem putBack_snd {e : Prio × RealServerArticle σ} : (st.putBack e).2 = e.2 := by
  unfold putBack
  split <;> rfl

theorem reprioritize_perm : ∀ {range rest sap : Prioritized σ}, (sap.map (·.2)).Nodup → sap.Perm (range ++ rest) →
    (st.reprioritize range sap).Perm (range.map st.putBack ++ rest)
  | [], _, _, _, h => h
  | ci :: range, rest, sap, hsap, h => by
    unfold reprioritize
    rw [List.map_cons, List.cons_append, putBack]
    split
    · next hconn =>
      have hci : ci ∈ sap := h.mem_iff.mpr List.mem_cons_self
      have hleft : (sap.erase ci).Perm (range ++ rest) := (((Prioritized.erase_perm hsap hci).symm.trans h).cons_inv)
      have hback : ((sap.erase ci).insert (ci.1 * aBitHigher, ci.2)).Perm
          (range ++ (ci.1 * aBitHigher, ci.2) :: rest) :=
        Prioritized.insert_perm.trans ((hleft.cons _).trans List.perm_middle.symm)
      have hpairs : (((sap.erase ci).insert (ci.1 * aBitHigher, ci.2)).map (·.2)).Nodup := by
        refine (Prioritized.insert_perm.map (·.2)).nodup_iff.mpr ?_
        exact ((Prioritized.erase_perm hsap hci).map (·.2)).nodup_iff.mp hsap
      exact (reprioritize_perm hpairs hback).trans List.perm_middle
    · exact (reprioritize_perm hsap (h.trans List.perm_middle.symm)).trans List.perm_middle

theorem desc_reprioritize : ∀ {range sap : Prioritized σ}, sap.Desc → (st.reprioritize range sap).Desc
  | [], _, h => h
  | ci :: range, sap, h => by
    unfold reprioritize
    split
    · exact desc_reprioritize h.erase.insert
    · exact desc_reprioritize h

/-- Whatever priority the range has, the pairs stay in the map. -/
theorem separate_pairs_perm {prio : ℚ} (hsap : (sap.map (·.2)).Nodup) :
    ((st.separate prio sap).map (·.2)).Perm (sap.map (·.2)) := by
  have hback : (fun e : Prio × RealServerArticle σ => e.2) ∘ st.putBack = (·.2) := funext fun _ => putBack_snd
  unfold separate
  dsimp only
  split
  · have h := (@reprioritize_perm _ _ st _ _ _ hsap (@Prioritized.equalRange_perm _ sap prio)).map (·.2)
    rw [List.map_append, List.map_map, hback, ← List.map_append] at h
    exact h.trans ((@Prioritized.equalRange_perm _ sap prio).symm.map (·.2))
  · exact List.Perm.refl _

/-- The map with the connected servers of one priority put back. -/
theorem mem_separate {top : Prio} {e : Prio × RealServerArticle σ} (hsap : (sap.map (·.2)).Nodup)
    (htie : ((sap.equalRange top).any (st.isConnected ·.2.server) && (sap.equalRange top).any (!st.isConnected ·.2.server)) =
      true) :
    e ∈ st.separate top sap ↔ (∃ a ∈ sap, a.1 = top ∧ st.putBack a = e) ∨ e ∈ sap ∧ e.1 ≠ top := by
  rw [separate, if_pos htie, (reprioritize_perm hsap Prioritized.equalRange_perm).mem_iff, List.mem_append, List.mem_map]
  simp only [Prioritized.equalRange, List.mem_filter, decide_eq_true_eq, Bool.not_eq_true', decide_eq_false_iff_not,
    Subtype.val_inj, and_assoc, ne_eq]

theorem desc_separate {prio : ℚ} (h : sap.Desc) : (st.separate prio sap).Desc := by
  unfold separate
  dsimp only
  split
  · exact desc_reprioritize h
  · exact h

/-! ### The order -/

/-- The priority of a pair, higher if there is a connection to the server. -/
def effectivePrio (st : ServerChoice σ) (c : RealServerArticle σ) : Prio := st.prio true c.sa c.server

/-- The pairs to try, each once, by their priorities; of those that nothing is above, the connected ones come first. -/
structure TriesInOrder (st : ServerChoice σ) (part : NntpPart) (pairs : List (RealServerArticle σ)) : Prop where
  nodup : pairs.Nodup
  mem : ∀ c, c ∈ pairs ↔ st.Eligible part c
  ordered : pairs.Pairwise fun a b => st.effectivePrio b ≤ st.effectivePrio a
  connectedFirst : pairs.Pairwise fun a b => (∀ c, st.Eligible part c → st.effectivePrio c ≤ st.effectivePrio b) →
    st.effectivePrio a = st.effectivePrio b → st.isConnected b.server = true → st.isConnected a.server = true

/-- The pairs come in order, and nothing but elements of the map was read. -/
structure Prioritizes (st : ServerChoice σ) (part : NntpPart) (r : Prioritized σ × Bool) : Prop where
  inside : r.2 = true
  order : st.TriesInOrder part (r.1.map (·.2))

theorem nodup_filled : ((st.filled part).map (·.2)).Nodup := filled_pairs_perm.nodup_iff.mpr nodup_pairs

section
variable {top : Prio} {e : Prio × RealServerArticle σ}

theorem effectivePrio_le (htop : ∀ e ∈ st.filled part, e.1 ≤ top) (he : e ∈ st.separate top (st.filled part)) :
    st.effectivePrio e.2 ≤ top := by
  have hpair := (separate_pairs_perm nodup_filled).mem_iff.mp (List.mem_map_of_mem he)
  obtain ⟨a, ha, heq⟩ := List.mem_map.mp hpair
  have hkey := (mem_filled.mp ha).2
  rw [← heq, effectivePrio, ← hkey]
  exact htop a ha

theorem lt_putBack : top < top * aBitHigher := by
  have hone : (1 : ℚ) < 1001 / 1000 := by norm_num
  exact lt_mul_of_one_lt_right' top hone

/-- An element is above the highest priority if its server was put back, and has its priority if it was not. -/
theorem key_separate (he : e ∈ st.separate top (st.filled part)) :
    (st.isConnected e.2.server = true ∧ st.effectivePrio e.2 = top ∧ top < e.1) ∨
      e.1 = st.effectivePrio e.2 ∧ (e ∈ st.filled part) := by
  by_cases htie : (((st.filled part).equalRange top).any (st.isConnected ·.2.server) &&
      ((st.filled part).equalRange top).any (!st.isConnected ·.2.server)) = true
  · rcases (mem_separate nodup_filled htie).mp he with ⟨a, ha, rfl, rfl⟩ | ⟨he, -⟩
    · have hkey := (mem_filled.mp ha).2
      unfold putBack
      split
      · next hconn => exact Or.inl ⟨hconn, hkey.symm, lt_putBack⟩
      · exact Or.inr ⟨hkey, ha⟩
    · exact Or.inr ⟨(mem_filled.mp he).2, he⟩
  · rw [separate, if_neg htie] at he
    exact Or.inr ⟨(mem_filled.mp he).2, he⟩

/-- With the highest priority the second pass does what it is for. -/
theorem separate_triesInOrder (htop : ∀ e ∈ st.filled part, e.1 ≤ top) (hmem : ∃ e ∈ st.filled part, e.1 = top) :
    st.TriesInOrder part ((st.separate top (st.filled part)).map (·.2)) := by
  have hperm := @separate_pairs_perm _ _ st (st.filled part) top nodup_filled
  have hdesc := @desc_separate _ _ st (st.filled part) top desc_filled
  refine ⟨hperm.nodup_iff.mpr nodup_filled, fun c => ?_, ?_, ?_⟩
  · rw [hperm.mem_iff, filled_pairs_perm.mem_iff, mem_pairs]
  · refine List.pairwise_map.mpr (hdesc.imp_of_mem fun {a b} ha hb hle => ?_)
    rcases key_separate ha with ⟨-, hatop, -⟩ | ⟨hakey, -⟩
    · rw [hatop]
      exact effectivePrio_le htop hb
    · rcases key_separate hb with ⟨-, -, habove⟩ | ⟨hbkey, -⟩
      · exact absurd (habove.trans_le (hle.trans (hakey.trans_le (effectivePrio_le htop ha)))) (lt_irrefl _)
      · rwa [← hakey, ← hbkey]
  · refine List.pairwise_map.mpr (hdesc.imp_of_mem fun {a b} ha hb hle hhigh heq hconn => ?_)
    obtain ⟨e, he, hetop⟩ := hmem
    -- A pair that nothing is above has the highest priority.
    have hbtop : st.effectivePrio b.2 = top := by
      refine le_antisymm (effectivePrio_le htop hb) ?_
      have hkey := (mem_filled.mp he).2
      rw [← hetop, hkey]
      exact hhigh e.2 (mem_filled.mp he).1
    by_cases htie : (((st.filled part).equalRange top).any (st.isConnected ·.2.server) &&
        ((st.filled part).equalRange top).any (!st.isConnected ·.2.server)) = true
    · have habove : top < b.1 := by
        rcases (mem_separate nodup_filled htie).mp hb with ⟨c, -, rfl, rfl⟩ | ⟨hb, hne⟩
        · rw [putBack_snd] at hconn
          rw [putBack, if_pos hconn]
          exact lt_putBack
        · exact absurd ((mem_filled.mp hb).2.trans hbtop) hne
      rcases key_separate ha with ⟨haconn, -⟩ | ⟨hakey, -⟩
      · exact haconn
      · exact absurd (habove.trans_le (hle.trans (hakey.trans (heq.trans hbtop)).le)) (lt_irrefl _)
    · rw [separate, if_neg htie] at ha hb
      have hrange : ∀ e ∈ st.filled part, st.effectivePrio e.2 = top → e ∈ (st.filled part).equalRange top := fun e he h =>
        List.mem_filter.mpr ⟨he, by simpa using congrArg Subtype.val ((mem_filled.mp he).2.trans h)⟩
      by_contra hnot
      refine htie (Bool.and_eq_true_iff.mpr ⟨?_, ?_⟩)
      · exact List.any_eq_true.mpr ⟨b, hrange b hb hbtop, hconn⟩
      · exact List.any_eq_true.mpr ⟨a, hrange a ha (heq.trans hbtop), by simpa using hnot⟩

theorem filled_eq_nil : st.filled part = [] ↔ ∀ c, ¬st.Eligible part c := by
  rw [List.eq_nil_iff_forall_not_mem]
  constructor
  · exact fun h c hc => h (st.keyed true c) (mem_filled.mpr ⟨hc, rfl⟩)
  · exact fun h e he => h e.2 (mem_filled.mp he).1

theorem triesInOrder_nil (hnone : ∀ c, ¬st.Eligible part c) : st.TriesInOrder part [] :=
  ⟨List.nodup_nil, fun c => by simp [hnone c], List.Pairwise.nil, List.Pairwise.nil⟩

/-- Read through `begin()`, the map has the highest priority. -/
theorem begin_triesInOrder {beyond : ℚ} :
    st.TriesInOrder part ((st.separate ((st.filled part).key beyond 0).1 (st.filled part)).map (·.2)) := by
  cases hmap : st.filled part with
  | nil =>
    have hempty : st.separate (Prioritized.key beyond 0 ([] : Prioritized σ)).1 [] = [] := rfl
    rw [hempty]
    exact triesInOrder_nil (filled_eq_nil.mp hmap)
  | cons e sap =>
    have hkey : (Prioritized.key beyond 0 (e :: sap)).1 = (e.1 : ℚ) := rfl
    rw [hkey, ← hmap]
    refine separate_triesInOrder (fun a ha => ?_) ⟨e, hmap ▸ List.mem_cons_self, rfl⟩
    have hdesc := @desc_filled _ _ st part
    rw [hmap] at ha hdesc
    rcases List.mem_cons.mp ha with rfl | ha
    · exact le_rfl
    · exact (List.pairwise_cons.mp hdesc).1 a ha

theorem nntpDoarticlePrioritize_eq {beyond : ℚ} : st.nntpDoarticlePrioritize part true beyond =
    if st.filled part = [] then ([], true) else (st.separate beyond (st.filled part), false) := by
  unfold nntpDoarticlePrioritize
  rw [show st.prioritizeArticles true part.articles.zipIdx [] = st.filled part from rfl]
  cases st.filled part <;> rfl

/-- The pass reads through `rend()` instead, which is to no element. It keeps to the map only where the map is empty. -/
theorem nntpDoarticlePrioritize_iff (st : ServerChoice σ) (part : NntpPart) (beyond : ℚ) :
    st.Prioritizes part (st.nntpDoarticlePrioritize part true beyond) ↔ ∀ c, ¬st.Eligible part c := by
  rw [nntpDoarticlePrioritize_eq, ← filled_eq_nil]
  constructor
  · intro h
    by_contra hne
    rw [if_neg hne] at h
    exact Bool.false_ne_true h.inside
  · intro h
    rw [if_pos h]
    exact ⟨rfl, triesInOrder_nil (filled_eq_nil.mp h)⟩

/-- Three servers of one priority, of which the last in the configuration is connected. -/
def threeServers : ServerChoice (Fin 3) where
  nconfig := { serv := [(1, 0), (2, 1), (3, 2)], curservmult := ⟨1, by norm_num⟩, distinct := by decide }
  isConnected s := s = 2
  priogrouping _ := {}

def threeArticles : NntpPart :=
  ⟨1, [⟨1, "a.b".toList, 10, 500, 5⟩, ⟨2, "a.b".toList, 20, 500, 5⟩, ⟨3, "a.b".toList, 30, 500, 5⟩], 0, "m".toList⟩

/-- The servers of the articles in their order. -/
def threePairs : List (RealServerArticle (Fin 3)) :=
  [⟨⟨1, "a.b".toList, 10, 500, 5⟩, 0, 0⟩, ⟨⟨2, "a.b".toList, 20, 500, 5⟩, 1, 1⟩, ⟨⟨3, "a.b".toList, 30, 500, 5⟩, 2, 2⟩]

/-- The connected server may not come behind the others, as nothing is above it. -/
theorem not_triesInOrder_threePairs : ¬threeServers.TriesInOrder threeArticles threePairs := by
  intro h
  have hall : ∀ c ∈ threePairs, threeServers.effectivePrio c = 1 := by decide +kernel
  obtain ⟨hfirst, -⟩ := List.pairwise_cons.mp h.connectedFirst
  have hconn := hfirst ⟨⟨3, "a.b".toList, 30, 500, 5⟩, 2, 2⟩ (by decide) ?_ ?_ rfl
  · exact absurd hconn (by decide)
  · intro c hc
    rw [hall c ((h.mem c).mpr hc)]
    exact (hall _ (by decide)).ge
  · rw [hall _ (by decide), hall _ (by decide)]

/-- Whatever stands outside of the map, it is no element. Where it is the number of elements, as three of them leave it
    in front of the least one, it is not their priority, and the connected server stays the last one. -/
theorem not_prioritizes_three :
    (∀ beyond, ¬threeServers.Prioritizes threeArticles (threeServers.nntpDoarticlePrioritize threeArticles true beyond)) ∧
      (threeServers.nntpDoarticlePrioritize threeArticles true (3 / 2 ^ 149)).1.map (·.2.server) = [0, 1, 2] ∧
      ¬threeServers.TriesInOrder threeArticles
        ((threeServers.nntpDoarticlePrioritize threeArticles true (3 / 2 ^ 149)).1.map (·.2)) := by
  have hmap : threeServers.filled threeArticles ≠ [] := by decide +kernel
  have hrun : (threeServers.nntpDoarticlePrioritize threeArticles true (3 / 2 ^ 149)).1.map (·.2) = threePairs := by
    decide +kernel
  refine ⟨fun beyond h => ?_, ?_, ?_⟩
  · have hinside := h.inside
    rw [nntpDoarticlePrioritize_eq, if_neg hmap] at hinside
    exact Bool.false_ne_true hinside
  · have hservers := congrArg (List.map (·.server)) hrun
    rw [List.map_map] at hservers
    exact hservers
  · rw [hrun]
    exact not_triesInOrder_threePairs

end
end ServerChoice
end Nget
