import Nget.Retries

/-! The attempts are made in rounds, each server's until it fails for good or has been tried as often as it may be. An
    article is not asked for again once it is there; an update asks every server. -/

namespace Nget
open Retry

variable {σ W : Type} {out : ServerSession σ W} {maxretry : Nat} {o : Attempt}

theorem articleVerdict_iff : (articleVerdict o = .keep ↔ o = .commEx false) ∧ (articleVerdict o = .drop ↔ o = .commEx true) ∧
    (articleVerdict o = .stop ↔ o = .done ∨ o = .thrown) := by
  rcases o with _ | fatal | _
  · decide
  · cases fatal <;> decide
  · decide

theorem updateVerdict_iff : (updateVerdict o = .keep ↔ o = .commEx false) ∧
    (updateVerdict o = .drop ↔ o = .done ∨ o = .commEx true) ∧ (updateVerdict o = .stop ↔ o = .thrown) := by
  rcases o with _ | fatal | _
  · decide
  · cases fatal <;> decide
  · decide

section
variable [DecidableEq σ]

/-- The attempts of a run of `nntp_doarticle` over the elements of a map, each with its place. -/
structure DoarticleScheduled (sap : Prioritized σ) (maxretry : Nat) (run : DoarticleRun σ W) : Prop where
  /-- Every round takes in order the candidates that did not fail for good, and all of them unless it is the last. -/
  inRounds : InRounds articleVerdict run.tries 0 maxretry sap.zipIdx (run.ret ≠ some (-1))
  stops : run.tries.Pairwise fun t _ => t.outcome ≠ .done
  success : run.ret = some 0 ↔ ∃ t ∈ run.tries, t.outcome = .done
  again : run.tries.Pairwise fun t t' => t.candidate = t'.candidate → t.outcome = .commEx false
  atMost : ∀ c, (run.tries.filter (·.candidate = c)).length ≤ maxretry
  failure : run.ret = some (-1) → ∀ c ∈ sap.zipIdx, (∃ t ∈ run.tries, t.candidate = c ∧ t.outcome = .commEx true) ∨
    ((run.tries.filter (·.candidate = c)).length = maxretry ∧ ∀ t ∈ run.tries, t.candidate = c → t.outcome = .commEx false)
  thrown : run.ret = none → ∃ t ∈ run.tries, t.outcome = .thrown

/-- The attempts of an update that asks servers. -/
structure UpdateScheduled (servers : List σ) (maxretry : Nat) (run : UpdateRun σ W) : Prop where
  inRounds : InRounds updateVerdict run.tries 0 maxretry servers run.thrown
  again : run.tries.Pairwise fun t t' => t.candidate = t'.candidate → t.outcome = .commEx false
  atMost : ∀ s, (run.tries.filter (·.candidate = s)).length ≤ maxretry
  succeeded : run.succeeded = (servers.filter fun s => run.tries.any fun t => t.candidate = s && t.outcome = .done).length
  asked : run.thrown = false → ∀ s ∈ servers,
    (∃ t ∈ run.tries, t.candidate = s ∧ (t.outcome = .done ∨ t.outcome = .commEx true)) ∨
    ((run.tries.filter (·.candidate = s)).length = maxretry ∧ ∀ t ∈ run.tries, t.candidate = s → t.outcome = .commEx false)
  thrown : run.thrown = true ↔ ∃ t ∈ run.tries, t.outcome = .thrown

theorem nodup_zipIdx {α : Type} {l : List α} : l.zipIdx.Nodup := List.Nodup.of_map Prod.snd (List.nodup_zipIdx_map_snd l)

theorem doarticleLoop_scheduled {sap : Prioritized σ} {w : W} :
    DoarticleScheduled sap maxretry (out.doarticleLoop maxretry sap w) := by
  have hin := @rounds_inRounds _ _ _ (fun sapi => out.getArticle sapi.1.2) articleVerdict _ maxretry 0 _ w (@nodup_zipIdx _ sap)
  have htried := @rounds_tried _ _ _ (fun sapi => out.getArticle sapi.1.2) articleVerdict _ maxretry 0 _ w (@nodup_zipIdx _ sap)
  unfold ServerSession.doarticleLoop
  dsimp only
  generalize rounds (fun sapi => out.getArticle sapi.1.2) articleVerdict maxretry 0 sap.zipIdx w = r at hin htried
  have hstops : r.tries.Pairwise fun t _ => t.outcome ≠ .done :=
    htried.stops.imp fun h heq => h (articleVerdict_iff.2.2.mpr (Or.inl heq))
  have hagain : r.tries.Pairwise fun t t' => t.candidate = t'.candidate → t.outcome = .commEx false :=
    htried.again.imp fun h heq => articleVerdict_iff.1.mp (h heq)
  have hend : r.stopped = true ↔ ∃ t ∈ r.tries, t.outcome = .done ∨ t.outcome = .thrown := by
    simp only [htried.stopped_iff, articleVerdict_iff.2.2]
  split
  · next hstopped =>
    rw [hstopped] at hin
    split
    · next hdone => exact ⟨hin, hstops, by simpa using hdone, hagain, htried.atMost, by simp, by simp⟩
    · next hdone =>
      refine ⟨hin, hstops, by simpa using hdone, hagain, htried.atMost, by simp, fun _ => ?_⟩
      obtain ⟨t, ht, houtcome | houtcome⟩ := hend.mp hstopped
      · exact absurd (List.any_eq_true.mpr ⟨t, ht, by simpa using houtcome⟩) hdone
      · exact ⟨t, ht, houtcome⟩
  · next hnot =>
    have hstopped := Bool.eq_false_iff.mpr hnot
    rw [hstopped] at hin
    refine ⟨hin, hstops, ?_, hagain, htried.atMost, fun _ c hc => ?_, by simp⟩
    · simp only [Option.some.injEq, show ((-1 : Int32) = 0) = False by simp, false_iff]
      exact fun ⟨t, ht, hdone⟩ => hnot (hend.mpr ⟨t, ht, Or.inl hdone⟩)
    · have h := htried.exhausted hstopped c hc
      simpa only [articleVerdict_iff.1, articleVerdict_iff.2.1] using h

section
variable {attempt : σ → W → Attempt × W} {servers : List σ} {w : W}

omit [DecidableEq σ] in
theorem updateLoop_fields : (updateLoop attempt maxretry servers w).tries =
      (rounds (counted attempt) updateVerdict maxretry 0 servers (w, 0)).tries ∧
    (updateLoop attempt maxretry servers w).succeeded =
      (rounds (counted attempt) updateVerdict maxretry 0 servers (w, 0)).world.2 ∧
    (updateLoop attempt maxretry servers w).thrown =
      (rounds (counted attempt) updateVerdict maxretry 0 servers (w, 0)).stopped := by
  unfold updateLoop
  dsimp only
  split
  · next hstopped => exact ⟨rfl, rfl, hstopped.symm⟩
  · next hnot =>
    have hstopped := Bool.eq_false_iff.mpr hnot
    split
    · exact ⟨rfl, rfl, hstopped.symm⟩
    · exact ⟨rfl, rfl, hstopped.symm⟩

omit [DecidableEq σ] in
theorem counted_count {s : σ} {st : W × Nat} :
    (counted attempt s st).2.2 = st.2 + (decide ((counted attempt s st).1 = .done)).toNat := by
  unfold counted
  rcases attempt s st.1 with ⟨_ | _ | _, w⟩ <;> rfl

/-- A server that succeeded left the list, so it is counted once. -/
theorem length_filter_done {tries : List (Try σ Attempt)} (hservers : servers.Nodup) (hmem : ∀ t ∈ tries, t.candidate ∈ servers)
    (hagain : tries.Pairwise fun t t' => t.candidate = t'.candidate → t.outcome = .commEx false) :
    (servers.filter fun s => tries.any fun t => t.candidate = s && t.outcome = .done).length =
      tries.countP (·.outcome = .done) := by
  have hnodup : ((tries.filter (·.outcome = .done)).map Try.candidate).Nodup := by
    refine List.pairwise_map.mpr ((hagain.filter _).imp_of_mem fun ht _ h heq => ?_)
    have hdone := (List.mem_filter.mp ht).2
    rw [h heq] at hdone
    exact absurd hdone (by decide)
  have hperm := (List.perm_ext_iff_of_nodup (hservers.filter fun s =>
    tries.any fun t => t.candidate = s && t.outcome = .done) hnodup).mpr fun s => by
      simp only [List.mem_filter, List.any_eq_true, Bool.and_eq_true, decide_eq_true_eq, List.mem_map]
      constructor
      · rintro ⟨-, t, ht, hcand, hdone⟩
        exact ⟨t, ⟨ht, hdone⟩, hcand⟩
      · rintro ⟨t, ⟨ht, hdone⟩, rfl⟩
        exact ⟨hmem t ht, t, ht, rfl, hdone⟩
  rw [hperm.length_eq, List.length_map, List.countP_eq_length_filter]

theorem updateLoop_scheduled (hservers : servers.Nodup) :
    UpdateScheduled servers maxretry (updateLoop attempt maxretry servers w) := by
  have hin := @rounds_inRounds _ _ _ (counted attempt) updateVerdict _ maxretry 0 _ (w, 0) hservers
  have htried := @rounds_tried _ _ _ (counted attempt) updateVerdict _ maxretry 0 _ (w, 0) hservers
  have hcount := @rounds_count _ _ _ (counted attempt) updateVerdict (fun o => o = .done) Prod.snd
    (fun _ _ => counted_count) maxretry 0 servers (w, 0)
  obtain ⟨htries, hsucceeded, hthrown⟩ := @updateLoop_fields _ _ maxretry attempt servers w
  rw [← htries, ← hthrown] at hin htried
  rw [← htries, ← hsucceeded, Nat.zero_add] at hcount
  generalize updateLoop attempt maxretry servers w = run at hin htried hcount
  have hagain : run.tries.Pairwise fun t t' => t.candidate = t'.candidate → t.outcome = .commEx false :=
    htried.again.imp fun h heq => updateVerdict_iff.1.mp (h heq)
  refine ⟨hin, hagain, htried.atMost, ?_, fun hend s hs => ?_, ?_⟩
  · rw [hcount, length_filter_done hservers (fun t ht => (hin.bounds t ht).2) hagain]
  · simpa only [updateVerdict_iff.1, updateVerdict_iff.2.1] using htried.exhausted hend s hs
  · simpa only [updateVerdict_iff.2.2] using htried.stopped_iff

end

/-! ### The servers that are asked -/

section
variable {st : ServerChoice σ} {g : ServerPriorityGrouping σ}

/-- The servers that are good enough, in whatever order. -/
theorem nntpSimplePrioritize_perm : ∀ {servers doservers : List σ},
    (servers.foldl (fun doservers s =>
      if g.defglevel ≤ g.getserverpriority s then if st.isConnected s then s :: doservers else doservers ++ [s]
      else doservers) doservers).Perm (doservers ++ servers.filter fun s => g.defglevel ≤ g.getserverpriority s)
  | [], doservers => by simp
  | s :: servers, doservers => by
    rw [List.foldl_cons]
    refine nntpSimplePrioritize_perm.trans ?_
    by_cases hgood : g.defglevel ≤ g.getserverpriority s
    · rw [if_pos hgood, List.filter_cons_of_pos (by simpa using hgood)]
      split
      · exact List.perm_middle.symm
      · rw [List.append_assoc, List.singleton_append]
    · rw [if_neg hgood, List.filter_cons_of_neg (by simpa using hgood)]

theorem nodup_nntpSimplePrioritize : (st.nntpSimplePrioritize g).Nodup := by
  unfold ServerChoice.nntpSimplePrioritize
  split
  · exact List.nodup_singleton _
  · exact nntpSimplePrioritize_perm.nodup_iff.mpr (st.nconfig.distinct.filter _)

end

/-- `nntp_doarticle` with any map of candidates, and the update of `nntp_group`. -/
theorem retries_scheduled (out : ServerSession σ W) (st : ServerChoice σ) (maxretry : Nat) (w : W) :
    (∀ sap : Prioritized σ, DoarticleScheduled sap maxretry (out.doarticleLoop maxretry sap w)) ∧
      ∀ group, ∃ run, out.nntpGroup st maxretry group true w = some run ∧
        UpdateScheduled (st.nntpSimplePrioritize (st.priogrouping group)) maxretry run :=
  ⟨fun _ => doarticleLoop_scheduled, fun _ => ⟨_, rfl, updateLoop_scheduled nodup_nntpSimplePrioritize⟩⟩

/-- The other updates go the same way. -/
theorem updates_scheduled (out : ServerSession σ W) (st : ServerChoice σ) (maxretry : Nat) (patinfos : List Text) (w : W) :
    (∀ group, UpdateScheduled (st.nntpSimplePrioritize (st.priogrouping group)) maxretry
      (out.nntpXgroup st maxretry group patinfos w)) ∧
    UpdateScheduled (st.nntpSimplePrioritize st.grouplistPriogroup) maxretry (out.nntpXgrouplist st maxretry patinfos w) ∧
    ∃ run, out.nntpGrouplist st maxretry true w = some run ∧
      UpdateScheduled (st.nntpSimplePrioritize st.grouplistPriogroup) maxretry run :=
  ⟨fun _ => updateLoop_scheduled nodup_nntpSimplePrioritize, updateLoop_scheduled nodup_nntpSimplePrioritize, _, rfl,
    updateLoop_scheduled nodup_nntpSimplePrioritize⟩

end
end Nget
