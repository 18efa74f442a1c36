import Nget.Theorems.CacheSave

/-! A cache text that is cut off. Its lines are the first lines of the whole text, and then the start of a line at
    most (`CutLines`). A line ends a record by its first character, so the records of the cut text are the first
    records of the whole one; and when the dot behind the servers' lines is there, the total of the whole text is
    known, and the parts are fewer. -/

namespace Nget
open CString CacheReader

/-- The lines of a text that is cut off, and those of the whole text. -/
inductive CutLines : List Text → List Text → Prop where
  | nil {lines : List Text} : CutLines [] lines
  | last {p line : Text} {lines : List Text} : p <+: line → p ≠ [] → CutLines [p] (line :: lines)
  | cons {line : Text} {xs ys : List Text} : CutLines xs ys → CutLines (line :: xs) (line :: ys)

theorem cutLines_of_start : ∀ {p f : Text}, p <+: f → CutLines (bufLines p) (bufLines f)
  | [], _, _ => .nil
  | c :: p, [], h => absurd (List.prefix_nil.mp h) (by simp)
  | c :: p, d :: f, h => by
    obtain ⟨rfl, htail⟩ := List.cons_prefix_cons.mp h
    have ih := cutLines_of_start htail
    rw [bufLines, bufLines]
    by_cases hc : c = '\n'
    · rw [if_pos hc, if_pos hc]
      exact .cons ih
    · rw [if_neg hc, if_neg hc]
      generalize bufLines p = xs at *
      generalize bufLines f = ys at *
      -- the character joins the first line of each
      cases ih with
      | nil =>
        cases ys with
        | nil => exact .last List.prefix_rfl (by simp)
        | cons line lines => exact .last (by simp) (by simp)
      | last hp _ => exact .last (List.cons_prefix_cons.mpr ⟨rfl, hp⟩) (by simp)
      | cons h => exact .cons h

section
variable {group : Text} {xs ys : List Text}

theorem head?_of_start {p line : Text} (hp : p <+: line) (hne : p ≠ []) : line.head? = p.head? := by
  obtain ⟨rest, rfl⟩ := hp
  exact List.head?_append_of_ne_nil _ hne

/-- What a line ends depends on its first character. -/
theorem docTurn_start {p line : Text} {pos : DocPos} {rec : Record} (hp : p <+: line) (hne : p ≠ [])
    (h : (docTurn group p pos).2 = some rec) : (docTurn group line pos).2 = some rec := by
  unfold docTurn at h ⊢
  cases pos with
  | file =>
    dsimp only at h
    split at h <;> cases h
  | references head =>
    dsimp only at h
    split at h <;> cases h
  | article rec' block =>
    dsimp only at h
    split at h
    · cases h
    · split at h <;> cases h
  | part rec' =>
    dsimp only at h ⊢
    rw [head?_of_start hp hne]
    split at h
    · next hdot => rwa [if_pos hdot]
    · split at h <;> cases h

theorem CutLines.docRun (h : CutLines xs ys) (pos : DocPos) : (docRun group pos xs).2 <+: (docRun group pos ys).2 := by
  induction h generalizing pos with
  | nil => exact List.nil_prefix
  | @last p line lines hp hne =>
    unfold Nget.docRun
    dsimp only
    cases hended : (docTurn group p pos).2 with
    | none => exact List.nil_prefix
    | some rec =>
      rw [docTurn_start hp hne hended]
      simp [Nget.docRun]
  | cons h ih =>
    unfold Nget.docRun
    exact List.prefix_append_right_inj _ |>.mpr (ih _)

/-- A cut text ends in the servers' lines, or is cut behind them. -/
theorem CutLines.docServers (h : CutLines xs ys) : (docServers xs).2 = none ∨
    ∃ xs' ys', (CacheReader.docServers xs).2 = some xs' ∧ (CacheReader.docServers ys).2 = some ys' ∧ CutLines xs' ys' := by
  induction h with
  | nil => exact Or.inl rfl
  | @last p line lines hp hne =>
    unfold CacheReader.docServers
    rw [head?_of_start hp hne]
    split
    · exact Or.inr ⟨_, _, rfl, rfl, .nil⟩
    · exact Or.inl rfl
  | cons h ih =>
    unfold CacheReader.docServers
    split
    · exact Or.inr ⟨_, _, rfl, rfl, h⟩
    · exact ih

/-- The records of a cut text are the first of the whole text's, and it gives the same total unless it ends in the
    first line or in the servers' lines. -/
theorem CutLines.cacheDoc {d d' : CacheDoc} (h : CutLines xs ys) (hx : cacheDoc group xs = some d)
    (hy : CacheReader.cacheDoc group ys = some d') :
    d.records <+: d'.records ∧ (d.complete = true → d.totalnum = d'.totalnum) := by
  cases h with
  | nil => cases hx
  | last hp hne =>
    obtain ⟨head, -, rfl⟩ := Option.map_eq_some_iff.mp hx
    exact ⟨List.nil_prefix, fun hcomplete => by cases hcomplete⟩
  | cons h =>
    obtain ⟨head, hhead, rfl⟩ := Option.map_eq_some_iff.mp hx
    obtain ⟨head', hhead', rfl⟩ := Option.map_eq_some_iff.mp hy
    obtain rfl := Option.some.inj (hhead.symm.trans hhead')
    refine ⟨?_, fun _ => rfl⟩
    unfold CacheDoc.records
    dsimp only
    rcases h.docServers with hnone | ⟨xs', ys', hxs, hys, hcut⟩
    · rw [hnone]
      exact List.nil_prefix
    · rw [hxs, hys]
      exact hcut.docRun _

end

theorem keptFiles_start {hasserver : UInt64 → Bool} {recs recs' : List Record} (h : recs <+: recs') :
    keptFiles hasserver recs <+: keptFiles hasserver recs' := by
  obtain ⟨rest, rfl⟩ := h
  rw [keptFiles_append]
  exact List.prefix_append _ _

namespace NntpCache

/-- The reader throws, or `check_counts` finds another count than the first line's. -/
def LossReported (out : CacheReader × List NntpFile × Option Text) : Prop :=
  out.2.2.isSome = true ∨ out.1.count ≠ out.1.totalnum

/-- Of a saved cache that is cut off anywhere, the reader returns the first files, as they are in the whole, and
    reports it when parts are lost. -/
theorem cut_save {hasserver : UInt64 → Bool} {now : Int64} {group text cut : Text} {midinfo : MetaMidInfo} {c : NntpCache}
    (hc : c.Savable hasserver) (hsave : c.save = some text) (hcut : cut <+: text) :
    (readCache hasserver now cut midinfo group).2.1 <+: (readCache hasserver now text midinfo group).2.1 ∧
      (numParts (readCache hasserver now cut midinfo group).2.1 < numParts (readCache hasserver now text midinfo group).2.1 →
        LossReported (readCache hasserver now cut midinfo group)) := by
  have hdoc' := @cacheDoc_save hasserver group text c hc hsave
  have hread' := @readCache_spec hasserver now text midinfo group
  have hread := @readCache_spec hasserver now cut midinfo group
  generalize readCache hasserver now text midinfo group = out' at *
  generalize readCache hasserver now cut midinfo group = out at *
  rw [hdoc'] at hread'
  cases hdoc : CacheReader.cacheDoc group (bufLines cut) with
  | none =>
    rw [hdoc] at hread
    rw [hread.1]
    exact ⟨List.nil_prefix, fun _ => Or.inl hread.2⟩
  | some d =>
    rw [hdoc] at hread
    obtain ⟨hfiles, hthrown, hcount⟩ := hread
    obtain ⟨hstart, htotal⟩ := (cutLines_of_start hcut).cacheDoc hdoc hdoc'
    have hwhole : numParts out'.2.1 = c.totalnum.toNat := by
      rw [hread'.1, hc.totalnum]
      exact (congrArg numParts (keptFiles_ofFile c.files hc.files hc.articles)).trans numParts_regroup
    refine ⟨by rw [hfiles, hread'.1]; exact keptFiles_start hstart, fun hless => ?_⟩
    cases hnone : out.2.2 with
    | some e => exact Or.inl (by rw [hnone]; rfl)
    | none =>
      obtain ⟨hparts, htotalnum⟩ := hcount hnone
      refine Or.inr fun heq => ?_
      rw [hparts, htotalnum, htotal (hthrown.mp hnone)] at heq
      have hlt := c.totalnum.toNat_lt
      have hnat := congrArg UInt64.toNat heq
      rw [UInt64.toNat_ofNat_of_lt' (show _ < 2 ^ 64 by omega)] at hnat
      dsimp only at hnat
      omega

theorem cut_save_sample : LossReported
    (readCache (fun _ => true) 0 ((putLines sampleCache.cacheLines).take 30) {} []) := by
  have hsave : sampleCache.save = some (putLines sampleCache.cacheLines) := by
    unfold save
    exact if_pos (by decide)
  exact (@cut_save _ 0 [] _ _ {} _ sampleCache_savable hsave (List.take_prefix 30 _)).2 (by decide +kernel)

end NntpCache
end Nget
