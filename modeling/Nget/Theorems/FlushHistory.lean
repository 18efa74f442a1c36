import Nget.Theorems.Flush

/-! What a flush does to the history of retrieved message-ids. The loops date the removal of each message-id whose part
    goes, and collect the message-ids in the history whose part stays; `do_delete_fun` then goes through the whole
    history. Each entry is changed by itself, so that what becomes of it is a function of the flush and of the entry. -/

namespace Nget

/-! ### Removal dates -/

namespace MidInfo
variable {m : MidInfo} {now : Int64} {mid : Text} {mids mids' : List Text}

/-- The entry with the removal date that a flush gives it when the parts of these message-ids go. -/
def markGone (mids : List Text) (now : Int64) (s : MessageState) : MessageState :=
  if s.messageid ∈ mids then { s with dateRemoved := now } else s

/-- The `set_delete`s of message-ids. -/
def setDeletes (mids : List Text) (now : Int64) (m : MidInfo) : MidInfo := { m with states := m.states.map (markGone mids now) }

@[simp] theorem markGone_messageid {s : MessageState} : (markGone mids now s).messageid = s.messageid := by
  unfold markGone
  split <;> rfl

@[simp] theorem markGone_dateAdded {s : MessageState} : (markGone mids now s).dateAdded = s.dateAdded := by
  unfold markGone
  split <;> rfl

theorem markGone_nil : markGone [] now = id := by
  funext s
  simp [markGone]

theorem markGone_comp : markGone mids' now ∘ markGone mids now = markGone (mids ++ mids') now := by
  funext s
  simp only [Function.comp_apply, markGone, List.mem_append]
  by_cases h : s.messageid ∈ mids <;> by_cases h' : s.messageid ∈ mids' <;> simp [h, h']

theorem setDeletes_nil : m.setDeletes [] now = m := by
  rw [setDeletes, markGone_nil, List.map_id]

theorem setDeletes_setDeletes : (m.setDeletes mids now).setDeletes mids' now = m.setDeletes (mids ++ mids') now := by
  simp only [setDeletes, List.map_map, markGone_comp]

theorem setDelete_eq : m.setDelete mid now = m.setDeletes [mid] now := by
  simp [setDelete, setDeletes, markGone]

@[simp] theorem check_setDeletes : (m.setDeletes mids now).check mid = m.check mid := by
  simp [check, setDeletes, Function.comp_def]

end MidInfo

namespace MetaMidInfo
variable {m : MetaMidInfo} {now : Int64} {mid : Text} {mids mids' : List Text}

theorem mapAll_mapAll {f g : MidInfo → MidInfo} : (m.mapAll f).mapAll g = m.mapAll (g ∘ f) := by
  simp [mapAll, Function.comp_def]

def setDeletes (m : MetaMidInfo) (mids : List Text) (now : Int64) : MetaMidInfo := m.mapAll (·.setDeletes mids now)

theorem setDeletes_nil : m.setDeletes [] now = m := by
  simp [setDeletes, mapAll, MidInfo.setDeletes_nil]

theorem setDeletes_setDeletes : (m.setDeletes mids now).setDeletes mids' now = m.setDeletes (mids ++ mids') now := by
  simp only [setDeletes, mapAll_mapAll, Function.comp_def, MidInfo.setDeletes_setDeletes]

theorem setDelete_eq : m.setDelete mid now = m.setDeletes [mid] now := by
  simp only [setDelete, setDeletes, MidInfo.setDelete_eq]

@[simp] theorem check_setDeletes : (m.setDeletes mids now).check mid = m.check mid := by
  simp [check, setDeletes, mapAll, Function.comp_def]

theorem check_of_mem {g : Text × MidInfo} {s : MessageState} (hg : g ∈ m.midinfos) (hs : s ∈ g.2.states) :
    m.check s.messageid = true := by
  simp only [check, MidInfo.check, List.any_eq_true, decide_eq_true_eq]
  exact ⟨g, hg, s, hs, rfl⟩

end MetaMidInfo

/-! ### The loops -/

namespace NntpCache
variable {c : NntpCache} {serverid : UInt64} {range : Nrange} {now : Int64}

/-- All articles of the part go. -/
def goes (serverid : UInt64) (range : Nrange) (p : NntpPart) : Bool := p.articles.all (flushes serverid range)

/-- The message-ids of the parts that go. -/
def goneMids (serverid : UInt64) (range : Nrange) (parts : List NntpPart) : List Text :=
  (parts.filter (goes serverid range)).map (·.messageid)

/-- The message-ids of the parts that stay. -/
def keptMids (serverid : UInt64) (range : Nrange) (parts : List NntpPart) : List Text :=
  (parts.filter (!goes serverid range ·)).map (·.messageid)

theorem flushArticles_isEmpty {sas : List NntpServerArticle} :
    (flushArticles serverid range sas).1.isEmpty = sas.all (flushes serverid range) := by
  rw [flushArticles_eq, Bool.eq_iff_iff]
  simp [List.filter_eq_nil_iff]

/-- What the loops do to the history, and what they collect. -/
structure Tracks (serverid : UInt64) (range : Nrange) (now : Int64) (parts : List NntpPart) (st st' : FlushState) : Prop where
  midinfo : ∃ gone, (∀ mid, mid ∈ gone ↔ mid ∈ goneMids serverid range parts) ∧ st'.midinfo = st.midinfo.setDeletes gone now
  kept : ∀ mid, st'.relMidinfo.check mid = true ↔
    st.relMidinfo.check mid = true ∨ mid ∈ keptMids serverid range parts ∧ st.midinfo.check mid = true

theorem Tracks.nil {st : FlushState} : Tracks serverid range now [] st st :=
  ⟨⟨[], by simp [goneMids], MetaMidInfo.setDeletes_nil.symm⟩, by simp [keptMids]⟩

theorem Tracks.append {parts parts' : List NntpPart} {st st' st'' : FlushState} (h : Tracks serverid range now parts st st')
    (h' : Tracks serverid range now parts' st' st'') : Tracks serverid range now (parts ++ parts') st st'' := by
  obtain ⟨⟨gone, hgone, hmid⟩, hkept⟩ := h
  obtain ⟨⟨gone', hgone', hmid'⟩, hkept'⟩ := h'
  refine ⟨⟨gone ++ gone', fun mid => ?_, ?_⟩, fun mid => ?_⟩
  · rw [List.mem_append, hgone, hgone', goneMids, goneMids, goneMids, List.filter_append, List.map_append, List.mem_append]
  · rw [hmid', hmid, MetaMidInfo.setDeletes_setDeletes]
  · rw [hkept', hkept, hmid, MetaMidInfo.check_setDeletes, keptMids, keptMids, keptMids, List.filter_append, List.map_append,
      List.mem_append]
    tauto

theorem Tracks.of_perm {parts parts' : List NntpPart} {st st' : FlushState} (h : Tracks serverid range now parts st st')
    (hperm : parts.Perm parts') : Tracks serverid range now parts' st st' := by
  obtain ⟨⟨gone, hgone, hmid⟩, hkept⟩ := h
  refine ⟨⟨gone, fun mid => (hgone mid).trans ?_, hmid⟩, fun mid => (hkept mid).trans ?_⟩
  · exact ((hperm.filter _).map _).mem_iff
  · rw [keptMids, keptMids, ((hperm.filter _).map _).mem_iff]

theorem flushParts_tracks {req : Int32} {haveNum : Int} {st : FlushState} : ∀ parts : List NntpPart,
    Tracks serverid range now parts st (flushParts serverid range req now parts haveNum st).2.2
  | [] => Tracks.nil
  | p :: ps => by
    have ih := @flushParts_tracks req haveNum st ps
    have hempty := @flushArticles_isEmpty serverid range p.articles
    unfold flushParts
    generalize flushParts serverid range req now ps haveNum st = r at ih ⊢
    generalize flushArticles serverid range p.articles = left at hempty ⊢
    refine Tracks.of_perm (ih.append ?_) (List.perm_append_comm : (ps ++ [p]).Perm ([p] ++ ps))
    dsimp only
    split
    · next hgoes =>
      rw [hempty] at hgoes
      exact ⟨⟨[p.messageid], by simp [goneMids, goes, hgoes], MetaMidInfo.setDelete_eq⟩, by simp [keptMids, goes, hgoes]⟩
    · next hstays =>
      rw [hempty, Bool.not_eq_true] at hstays
      refine ⟨⟨[], by simp [goneMids, goes, hstays], ?_⟩, fun mid => ?_⟩
      · rw [MetaMidInfo.setDeletes_nil]
        dsimp only
        split <;> rfl
      · simp only [keptMids, goes, hstays, List.filter_cons, List.filter_nil, List.map_cons, List.map_nil, List.mem_singleton,
          Bool.not_false, if_true]
        split
        · next hcheck =>
          rw [MidInfo.check_insert, Bool.or_eq_true, decide_eq_true_eq]
          exact or_congr_right ⟨fun h => ⟨h.symm, h ▸ hcheck⟩, fun h => h.1.symm⟩
        · next hcheck => exact ⟨Or.inl, fun h => h.resolve_right fun h => hcheck (h.1 ▸ h.2)⟩

theorem flushFiles_tracks : ∀ (files : List NntpFile) (st : FlushState),
    Tracks serverid range now (files.flatMap (·.parts)) st (flushFiles serverid range now files st).2
  | [], st => Tracks.nil
  | f :: fs, st => by
    have hparts := @flushParts_tracks serverid range now f.req f.haveNum st f.parts
    unfold flushFiles
    generalize flushParts serverid range f.req now f.parts f.haveNum st = r at hparts ⊢
    rw [List.flatMap_cons]
    dsimp only
    split
    · obtain ⟨hmid, hkept⟩ := flushFiles_tracks fs { r.2.2 with countf := r.2.2.countf + 1 }
      exact hparts.append ⟨hmid, hkept⟩
    · exact hparts.append (flushFiles_tracks fs r.2.2)

/-- The parts that are left. -/
theorem flushFiles_parts : ∀ (files : List NntpFile) (st : FlushState),
    (flushFiles serverid range now files st).1.flatMap (·.parts) =
      withoutParts (flushes serverid range) (files.flatMap (·.parts))
  | [], _ => rfl
  | f :: fs, st => by
    have hparts := (@flushParts_spec serverid range now f.req f.haveNum st f.parts).1
    have happend : ∀ ps qs : List NntpPart, withoutParts (flushes serverid range) (ps ++ qs) =
        withoutParts (flushes serverid range) ps ++ withoutParts (flushes serverid range) qs := fun ps qs => by
      rw [withoutParts, List.map_append, List.filter_append]
      rfl
    unfold flushFiles
    dsimp only at *
    generalize flushParts serverid range f.req now f.parts f.haveNum st = r at *
    rw [List.flatMap_cons, happend, ← hparts]
    split
    · next hnil => rw [flushFiles_parts fs, List.isEmpty_iff.mp hnil, List.nil_append]
    · rw [List.flatMap_cons, flushFiles_parts fs]

theorem mem_keptMids {parts : List NntpPart} {mid : Text} :
    mid ∈ keptMids serverid range parts ↔ ∃ p ∈ withoutParts (flushes serverid range) parts, p.messageid = mid := by
  simp only [keptMids, withoutParts, List.mem_map, List.mem_filter]
  constructor
  · rintro ⟨p, ⟨hp, hstays⟩, rfl⟩
    refine ⟨withoutPart (flushes serverid range) p, ⟨⟨p, hp, rfl⟩, ?_⟩, rfl⟩
    rw [goes, ← flushArticles_isEmpty, flushArticles_eq] at hstays
    exact hstays
  · rintro ⟨q, ⟨⟨p, hp, rfl⟩, hstays⟩, rfl⟩
    refine ⟨p, ⟨hp, ?_⟩, rfl⟩
    rw [goes, ← flushArticles_isEmpty, flushArticles_eq]
    exact hstays

/-! ### A call -/

/-- A call of `flush` with a range, or of `flushlow` with a new low water mark. -/
inductive FlushCall where
  | flush (range : Nrange)
  | flushlow (newlow : UInt64)

namespace FlushCall

/-- The range that the call is restricted to. -/
def effective (call : FlushCall) (c : NntpCache) (serverid : UInt64) : Nrange :=
  match call with
  | .flush range => c.restrict serverid range
  | .flushlow newlow => c.restrict serverid ((∅ : Nrange).insert 0 (newlow - 1))

def run (call : FlushCall) (c : NntpCache) (serverid : UInt64) (midinfo : MetaMidInfo) (now : Int64) :
    NntpCache × UInt64 × MetaMidInfo :=
  match call with
  | .flush range => c.flush serverid range midinfo now
  | .flushlow newlow => c.flushlow serverid newlow midinfo now

end FlushCall

/-- What becomes of an entry of the history: the entry with its new removal date, which is dead where the entry is
    expired and no part with its message-id stays. -/
def entryAfter (gone kept : List Text) (now : Int64) (s : MessageState) : MessageState :=
  if s.messageid ∉ kept ∧ MidInfo.expired (MidInfo.markGone gone now s) now then
    { s with dateRemoved := timeTDead }
  else MidInfo.markGone gone now s

theorem flush_history {midinfo : MetaMidInfo} (hrange : (c.restrict serverid range).empty = false) :
    (c.flush serverid range midinfo now).1.files.flatMap (·.parts) =
        withoutParts (flushes serverid (c.restrict serverid range)) (c.files.flatMap (·.parts)) ∧
      (c.flush serverid range midinfo now).2.2.midinfos.map (fun g => (g.1, g.2.states)) =
        midinfo.midinfos.map fun g => (g.1, g.2.states.map (entryAfter
          (goneMids serverid (c.restrict serverid range) (c.files.flatMap (·.parts)))
          (keptMids serverid (c.restrict serverid range) (c.files.flatMap (·.parts))) now)) := by
  have htracks := @flushFiles_tracks serverid (c.restrict serverid range) now c.files { midinfo }
  have hparts := @flushFiles_parts serverid (c.restrict serverid range) now c.files { midinfo }
  unfold flush
  dsimp only
  rw [show ((range.remove 0 ((c.servinfo serverid).low - 1)).remove ((c.servinfo serverid).high + 1) Nrange.varmax) =
    c.restrict serverid range from rfl, hrange]
  generalize flushFiles serverid (c.restrict serverid range) now c.files { midinfo } = r at *
  refine ⟨hparts, ?_⟩
  obtain ⟨⟨gone, hgone, hmid⟩, hkept⟩ := htracks
  rw [if_neg (by decide)]
  dsimp only at *
  rw [hmid, MetaMidInfo.doDeleteFun, MetaMidInfo.setDeletes, MetaMidInfo.mapAll_mapAll, MetaMidInfo.mapAll, List.map_map]
  refine List.map_congr_left fun g hg => Prod.ext rfl ?_
  simp only [Function.comp_apply, MidInfo.doDeleteFun, MidInfo.setDeletes, List.map_map]
  refine List.map_congr_left fun s hs => ?_
  have hmark : MidInfo.markGone gone now s = MidInfo.markGone (goneMids serverid (c.restrict serverid range)
      (c.files.flatMap (·.parts))) now s := by
    simp only [MidInfo.markGone, hgone]
  have hrel : r.2.relMidinfo.check s.messageid = true ↔
      s.messageid ∈ keptMids serverid (c.restrict serverid range) (c.files.flatMap (·.parts)) := by
    rw [hkept, MetaMidInfo.check_of_mem hg hs, and_iff_left rfl]
    exact or_iff_right (by simp [MidInfo.check])
  simp only [Function.comp_apply, entryAfter, hmark, MidInfo.markGone_messageid, Bool.and_eq_true, Bool.not_eq_true',
    ← Bool.not_eq_true, hrel]
  split
  · rw [MidInfo.markGone]
    split <;> rfl
  · rfl

/-! ### What is forgotten -/

/-- When the message-id of an entry was marked removed, if it was; a part that goes marks it now. -/
def removedAt (gone : List Text) (now : Int64) (s : MessageState) : Option Int64 :=
  if s.messageid ∈ gone then some now else if s.dateRemoved = timeTMax1 then none else some s.dateRemoved

/-- What may become of an entry when these parts are left: it becomes dead only where its message-id is on none of them, it
    was added more than 14 days ago, and it is not marked removed or was more than 7 days ago. -/
structure Keeps (parts : List NntpPart) (gone : List Text) (now : Int64) (s s' : MessageState) : Prop where
  messageid : s'.messageid = s.messageid
  added : s'.dateAdded = s.dateAdded
  offered : s.dateRemoved ≠ timeTDead → s'.dateRemoved = timeTDead → ∀ p ∈ parts, p.messageid ≠ s.messageid
  old : s.dateRemoved ≠ timeTDead → s'.dateRemoved = timeTDead → s.dateAdded.toInt + midInfoMinKeep.toInt < now.toInt
  removed : s.dateRemoved ≠ timeTDead → s'.dateRemoved = timeTDead →
    ∀ t ∈ removedAt gone now s, t.toInt + midInfoMinKeepDel.toInt < now.toInt

/-- The dates of an entry are such that nothing goes wrong with it: no part of it goes when the clock reads what stands for
    a dead entry; and where it is expired and no part of it stays, none goes either, and the sums of its dates with the
    days they are kept are `time_t`s. -/
structure Dated (gone kept : List Text) (now : Int64) (s : MessageState) : Prop where
  clock : s.messageid ∈ gone → now ≠ timeTDead
  sums : s.messageid ∉ kept → MidInfo.expired (MidInfo.markGone gone now s) now = true →
    s.messageid ∉ gone ∧ s.dateAdded.toInt + midInfoMinKeep.toInt < 2 ^ 63 ∧
      (s.dateRemoved = timeTMax1 ∨ s.dateRemoved.toInt + midInfoMinKeepDel.toInt < 2 ^ 63)

theorem toInt_add_of_lt {a b : Int64} (hb : 0 ≤ b.toInt) (h : a.toInt + b.toInt < 2 ^ 63) :
    (a + b).toInt = a.toInt + b.toInt := by
  have ha := a.le_toInt
  rw [Int64.toInt_add]
  exact Int.bmod_eq_of_le (by omega) (by omega)

theorem toInt_midInfoMinKeep : 0 ≤ midInfoMinKeep.toInt ∧ 0 ≤ midInfoMinKeepDel.toInt := by decide

section
variable {parts : List NntpPart} {gone kept : List Text} {s : MessageState}

@[simp] theorem entryAfter_messageid : (entryAfter gone kept now s).messageid = s.messageid := by
  unfold entryAfter
  split
  · rfl
  · exact MidInfo.markGone_messageid

@[simp] theorem entryAfter_dateAdded : (entryAfter gone kept now s).dateAdded = s.dateAdded := by
  unfold entryAfter
  split
  · rfl
  · exact MidInfo.markGone_dateAdded

/-- A live entry becomes dead where it is expired and no part of it stays, or where a part of it goes at the time that
    stands for a dead entry. -/
theorem entryAfter_dead (hlive : s.dateRemoved ≠ timeTDead) : (entryAfter gone kept now s).dateRemoved = timeTDead ↔
    (s.messageid ∉ kept ∧ MidInfo.expired (MidInfo.markGone gone now s) now = true) ∨
      s.messageid ∈ gone ∧ now = timeTDead := by
  unfold entryAfter
  split
  · next h => exact iff_of_true rfl (Or.inl h)
  · next h =>
    rw [or_iff_right h, MidInfo.markGone]
    split
    · next hgone => exact (and_iff_right hgone).symm
    · next hgone => exact iff_of_false hlive fun h => hgone h.1

/-- An entry that no part goes of is expired as its dates say, where their sums do not wrap. -/
theorem lt_of_expired (h : MidInfo.expired s now = true) (hadded : s.dateAdded.toInt + midInfoMinKeep.toInt < 2 ^ 63) :
    s.dateAdded.toInt + midInfoMinKeep.toInt < now.toInt ∧
      (s.dateRemoved = timeTMax1 ∨ s.dateRemoved + midInfoMinKeepDel < now) := by
  simp only [MidInfo.expired, Bool.or_eq_true, Bool.and_eq_true, decide_eq_true_eq] at h
  rw [← toInt_add_of_lt toInt_midInfoMinKeep.1 hadded, ← Int64.lt_iff_toInt_lt]
  rcases h with ⟨hunmarked, hold⟩ | ⟨hold, hmarked⟩
  · exact ⟨hold, Or.inl hunmarked⟩
  · exact ⟨hold, Or.inr hmarked⟩

theorem keeps_iff (hkept : ∀ mid, mid ∈ kept ↔ ∃ p ∈ parts, p.messageid = mid) :
    Keeps parts gone now s (entryAfter gone kept now s) ↔ (s.dateRemoved ≠ timeTDead → Dated gone kept now s) := by
  have hkeep := toInt_midInfoMinKeep
  have hnow := now.toInt_lt
  constructor
  · intro h hlive
    have hgone : (entryAfter gone kept now s).dateRemoved = timeTDead → s.messageid ∉ gone := fun hdead hgone => by
      have := h.removed hlive hdead now (by rw [removedAt, if_pos hgone]; rfl)
      omega
    refine ⟨fun hmem hclock => ?_, fun hnot hexpired => ?_⟩
    · exact hgone ((entryAfter_dead hlive).mpr (Or.inr ⟨hmem, hclock⟩)) hmem
    · have hdead := (entryAfter_dead hlive).mpr (Or.inl ⟨hnot, hexpired⟩)
      refine ⟨hgone hdead, (h.old hlive hdead).trans hnow, or_iff_not_imp_left.mpr fun hmarked => ?_⟩
      have hremoved := h.removed hlive hdead s.dateRemoved
      rw [removedAt, if_neg (hgone hdead), if_neg hmarked] at hremoved
      exact (hremoved rfl).trans hnow
  · intro h
    have hdead : s.dateRemoved ≠ timeTDead → (entryAfter gone kept now s).dateRemoved = timeTDead →
        s.messageid ∉ kept ∧ s.messageid ∉ gone ∧ s.dateAdded.toInt + midInfoMinKeep.toInt < now.toInt ∧
          (s.dateRemoved = timeTMax1 ∨ s.dateRemoved.toInt + midInfoMinKeepDel.toInt < now.toInt) := fun hlive hdead => by
      obtain ⟨hclock, hsums⟩ := h hlive
      rcases (entryAfter_dead hlive).mp hdead with ⟨hnot, hexpired⟩ | ⟨hgone, heq⟩
      · obtain ⟨hgone, hadded, hremoved⟩ := hsums hnot hexpired
        rw [MidInfo.markGone, if_neg hgone] at hexpired
        obtain ⟨hold, hmarked⟩ := lt_of_expired hexpired hadded
        refine ⟨hnot, hgone, hold, or_iff_not_imp_left.mpr fun hne => ?_⟩
        rw [← toInt_add_of_lt hkeep.2 (hremoved.resolve_left hne), ← Int64.lt_iff_toInt_lt]
        exact hmarked.resolve_left hne
      · exact absurd heq (hclock hgone)
    refine ⟨entryAfter_messageid, entryAfter_dateAdded, fun hlive hd p hp heq => ?_, fun hlive hd => (hdead hlive hd).2.2.1,
      fun hlive hd t ht => ?_⟩
    · exact (hdead hlive hd).1 ((hkept _).mpr ⟨p, hp, heq⟩)
    · obtain ⟨-, hgone, -, hremoved⟩ := hdead hlive hd
      rw [removedAt, if_neg hgone] at ht
      split at ht
      · cases ht
      · next hne =>
        obtain rfl := Option.some.inj ht
        exact hremoved.resolve_left hne

end

/-- The message-ids of the parts that a call makes go, and of those it lets stay. -/
def FlushCall.gone (call : FlushCall) (c : NntpCache) (serverid : UInt64) : List Text :=
  goneMids serverid (call.effective c serverid) (c.files.flatMap (·.parts))

def FlushCall.kept (call : FlushCall) (c : NntpCache) (serverid : UInt64) : List Text :=
  keptMids serverid (call.effective c serverid) (c.files.flatMap (·.parts))

/-- Each entry of the history becomes what it may become. -/
def KeepsHistory (call : FlushCall) (c : NntpCache) (serverid : UInt64) (midinfo : MetaMidInfo) (now : Int64) : Prop :=
  List.Forall₂ (fun g g' => g'.1 = g.1 ∧ List.Forall₂ (Keeps
    ((call.run c serverid midinfo now).1.files.flatMap (·.parts)) (call.gone c serverid) now) g.2.states g'.2.states)
    midinfo.midinfos (call.run c serverid midinfo now).2.2.midinfos

/-- A call whose range is not empty leaves of the history what it should exactly where the dates of each entry that is
    not dead are such that nothing goes wrong with it. -/
theorem flush_keeps_history_iff (call : FlushCall) (c : NntpCache) (serverid : UInt64) (midinfo : MetaMidInfo) (now : Int64)
    (hrange : (call.effective c serverid).empty = false) :
    KeepsHistory call c serverid midinfo now ↔ ∀ g ∈ midinfo.midinfos, ∀ s ∈ g.2.states, s.dateRemoved ≠ timeTDead →
      Dated (call.gone c serverid) (call.kept c serverid) now s := by
  have hcall : (call.run c serverid midinfo now).1.files.flatMap (·.parts) =
        withoutParts (flushes serverid (call.effective c serverid)) (c.files.flatMap (·.parts)) ∧
      (call.run c serverid midinfo now).2.2.midinfos.map (fun g => (g.1, g.2.states)) =
        midinfo.midinfos.map fun g => (g.1, g.2.states.map (entryAfter (call.gone c serverid) (call.kept c serverid) now)) := by
    cases call with
    | flush range => exact flush_history hrange
    | flushlow newlow => exact flush_history hrange
  obtain ⟨hparts, hstates⟩ := hcall
  have hkept : ∀ mid, mid ∈ call.kept c serverid ↔
      ∃ p ∈ (call.run c serverid midinfo now).1.files.flatMap (·.parts), p.messageid = mid := fun mid => by
    rw [hparts]
    exact mem_keptMids
  unfold KeepsHistory
  generalize (call.run c serverid midinfo now).2.2.midinfos = after at hstates ⊢
  generalize (call.run c serverid midinfo now).1.files.flatMap (·.parts) = parts at hkept ⊢
  have hentries : ∀ states : List MessageState, List.Forall₂ (Keeps parts (call.gone c serverid) now) states
      (states.map (entryAfter (call.gone c serverid) (call.kept c serverid) now)) ↔
        ∀ s ∈ states, s.dateRemoved ≠ timeTDead → Dated (call.gone c serverid) (call.kept c serverid) now s := fun states => by
    rw [List.forall₂_map_right_iff, List.forall₂_same]
    exact forall₂_congr fun s _ => keeps_iff hkept
  have hpairs : List.Forall₂ (fun g g' => g'.1 = g.1 ∧ List.Forall₂ (Keeps parts (call.gone c serverid) now) g.2.states
      g'.2.states) midinfo.midinfos after ↔ List.Forall₂ (fun g g' => g'.1 = g.1 ∧ List.Forall₂ (Keeps parts
        (call.gone c serverid) now) g.2.states g'.2) midinfo.midinfos (after.map fun g => (g.1, g.2.states)) := by
    rw [List.forall₂_map_right_iff]
  rw [hpairs, hstates, List.forall₂_map_right_iff, List.forall₂_same]
  exact forall₂_congr fun g _ => (and_iff_right rfl).trans (hentries g.2.states)

/-- Two parts of a message-id that is in the history, one of them in the range. -/
def twoParts : NntpCache :=
  { files := [{ (default : NntpFile) with req := 2, haveNum := 2, parts :=
      [⟨1, [⟨1, [], 5, 0, 0⟩], 0, "<m>".toList⟩, ⟨2, [⟨1, [], 7, 0, 0⟩], 0, "<m>".toList⟩] }]
    totalnum := 2
    serverInfo := SortedMap.insertNew ∅ 1 ⟨1, 7, 5, 2⟩ }

def twoPartsHistory : MetaMidInfo := ⟨[([], ⟨false, [⟨"<m>".toList, 2000000000, timeTMax1⟩]⟩)]⟩

theorem flush_keeps_history_iff_two : KeepsHistory (.flushlow 6) twoParts 1 twoPartsHistory 2100000000 ∧
    KeepsHistory (.flush ((∅ : Nrange).insert 5 5)) twoParts 1 twoPartsHistory 2100000000 := by
  have hdated : ∀ gone : List Text, ∀ g ∈ twoPartsHistory.midinfos, ∀ s ∈ g.2.states, s.dateRemoved ≠ timeTDead →
      Dated gone ["<m>".toList] 2100000000 s := fun gone g hg s hs _ => by
    obtain rfl := List.mem_singleton.mp hg
    obtain rfl := List.mem_singleton.mp hs
    exact ⟨fun _ => by decide, fun hnot => absurd List.mem_cons_self hnot⟩
  have hlow : FlushCall.kept (.flushlow 6) twoParts 1 = ["<m>".toList] := by decide +kernel
  have hrange : FlushCall.kept (.flush ((∅ : Nrange).insert 5 5)) twoParts 1 = ["<m>".toList] := by decide +kernel
  exact ⟨(flush_keeps_history_iff (.flushlow 6) twoParts 1 twoPartsHistory 2100000000 (by decide +kernel)).mpr
      (hlow ▸ hdated _),
    (flush_keeps_history_iff (.flush ((∅ : Nrange).insert 5 5)) twoParts 1 twoPartsHistory 2100000000
      (by decide +kernel)).mpr (hrange ▸ hdated _)⟩

/-- At the time that stands for a dead entry, the part that goes makes the entry dead that the other part still has. -/
theorem flush_keeps_history_fails : ¬∀ (call : FlushCall) (c : NntpCache) (serverid : UInt64) (midinfo : MetaMidInfo)
    (now : Int64), (call.effective c serverid).empty = false → KeepsHistory call c serverid midinfo now := by
  intro h
  have hkeeps := h (.flush ((∅ : Nrange).insert 5 5)) twoParts 1 twoPartsHistory timeTDead (by decide +kernel)
  have hafter : (FlushCall.run (.flush ((∅ : Nrange).insert 5 5)) twoParts 1 twoPartsHistory timeTDead).2.2.midinfos =
      [([], ⟨false, [⟨"<m>".toList, 2000000000, timeTDead⟩]⟩)] := by decide +kernel
  have hparts : (FlushCall.run (.flush ((∅ : Nrange).insert 5 5)) twoParts 1 twoPartsHistory timeTDead).1.files.flatMap
      (·.parts) = [⟨2, [⟨1, [], 7, 0, 0⟩], 0, "<m>".toList⟩] := by decide +kernel
  rw [KeepsHistory, hafter, hparts, twoPartsHistory, List.forall₂_cons, List.forall₂_cons] at hkeeps
  exact hkeeps.1.2.1.offered (by decide) rfl _ List.mem_cons_self rfl

end NntpCache
end Nget
