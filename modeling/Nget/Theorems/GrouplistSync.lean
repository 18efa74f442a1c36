import Nget.Theorems.Conversation
import Mathlib

/-! Following the newsgroups of the servers. nget notes the time that it gets from a server before it asks for the groups, and
    asks the next time for those created since. Servers create groups at any time, updates break off, servers are flushed, and
    the list is saved and loaded again: a group that was created before the noted time is in the list all along. -/

namespace Nget
open CString Outcome

namespace Grouplist
variable {gl gl' : Grouplist} {s t : UInt64} {n date : Text}

theorem servinfoDate_congr (h : gl'.serverInfo.find? t = gl.serverInfo.find? t) :
    ProtNntp.servinfoDate t gl' = ProtNntp.servinfoDate t gl := by
  unfold ProtNntp.servinfoDate
  rw [h]

theorem servinfoDate_getserverinfo : ProtNntp.servinfoDate t (gl.getserverinfo s) = ProtNntp.servinfoDate t gl := by
  unfold ProtNntp.servinfoDate getserverinfo
  dsimp only
  rw [SortedMap.find?_insertNew]
  cases gl.serverInfo.find? t with
  | some e => rfl
  | none =>
    by_cases hts : t = s
    · rw [if_pos hts]
      rfl
    · rw [if_neg hts]
      rfl

theorem find?_getserverinfo : ∃ e, (gl.getserverinfo s).serverInfo.find? s = some e ∧ e.1 = s := by
  unfold getserverinfo
  dsimp only
  rw [SortedMap.find?_insertNew, if_pos rfl]
  cases hfind : gl.serverInfo.find? s with
  | some e => exact ⟨e, rfl, (SortedMap.find?_eq_some_iff.mp hfind).2⟩
  | none => exact ⟨_, rfl, rfl⟩

theorem servinfoDate_setDate :
    ProtNntp.servinfoDate t (gl.setDate s date) = if t = s then date else ProtNntp.servinfoDate t gl := by
  obtain ⟨e, hfind, hkey⟩ := @find?_getserverinfo gl s
  have hset : gl.setDate s date =
      { gl.getserverinfo s with serverInfo := (gl.getserverinfo s).serverInfo.assign s { e.2 with date } } := by
    unfold setDate
    dsimp only
    rw [hfind]
  rw [hset]
  by_cases hts : t = s
  · rw [if_pos hts]
    unfold ProtNntp.servinfoDate
    dsimp only
    rw [SortedMap.find?_assign, if_pos hts]
  · rw [if_neg hts, ← @servinfoDate_getserverinfo gl s t]
    refine servinfoDate_congr ?_
    dsimp only
    rw [SortedMap.find?_assign, if_neg hts]

theorem servinfoDate_flushserver :
    ProtNntp.servinfoDate t (gl.flushserver s) = if t = s then [] else ProtNntp.servinfoDate t gl := by
  have hinfo : (gl.flushserver s).serverInfo = gl.serverInfo.erase s := rfl
  by_cases hts : t = s
  · have hnone : (gl.serverInfo.erase s).find? t = none :=
      SortedMap.find?_eq_none_iff.mpr fun x hx hxt => (SortedMap.mem_erase.mp hx).2 (hxt.trans hts)
    rw [if_pos hts]
    unfold ProtNntp.servinfoDate
    rw [hinfo, hnone]
  · rw [if_neg hts]
    refine servinfoDate_congr ?_
    rw [hinfo]
    exact SortedMap.find?_congr fun x hx => SortedMap.mem_erase.trans (and_iff_left fun h => hts (hx.symm.trans h))

theorem getserverinfo_savable {hasserver : UInt64 → Bool} (h : gl.Savable hasserver) (hs : hasserver s = true) :
    (gl.getserverinfo s).Savable hasserver where
  groups := h.groups
  serverInfo e he := by
    rcases SortedMap.mem_insertNew he with he | rfl
    · exact h.serverInfo e he
    · exact ⟨rfl, hs, fun _ hc => by cases hc⟩

end Grouplist

namespace ProtNntp

/-! ### The lines of a list -/

section Lines
variable {act : Text → Grouplist → Grouplist} {gl gl' : Grouplist} {lines rest : List Text} {cbuf cbuf' : Text}

/-- The lines before the dot are done, or all there are. -/
theorem linesLoop_eq : ∀ {lines : List Text} {cbuf : Text} {gl : Grouplist}, (∀ line ∈ lines, OneLine line) →
    (∃ body rest, linesLoop act lines cbuf gl = (some rest, ['.'], body.foldl (fun gl line => act line gl) gl) ∧
      lines = body ++ ['.'] :: rest ∧ ['.'] ∉ body) ∨
    ∃ cbuf', linesLoop act lines cbuf gl = (none, cbuf', lines.foldl (fun gl line => act line gl) gl)
  | [], cbuf, gl, _ => Or.inr ⟨cbuf, rfl⟩
  | line :: lines, cbuf, gl, h => by
    obtain ⟨hline, hlines⟩ := List.forall_mem_cons.mp h
    unfold linesLoop
    rw [hline.cstr]
    by_cases hdot : line = ['.']
    · subst hdot
      exact Or.inl ⟨[], lines, rfl, rfl, List.not_mem_nil⟩
    · have hend : ¬isEndMark line = true := fun h => hdot (of_decide_eq_true h)
      dsimp only
      rw [if_neg hend]
      rcases @linesLoop_eq lines line (act line gl) hlines with ⟨body, rest, heq, hl, hbody⟩ | ⟨cbuf', heq⟩
      · refine Or.inl ⟨line :: body, rest, heq, by rw [hl, List.cons_append], ?_⟩
        exact List.not_mem_cons_of_ne_of_not_mem (Ne.symm hdot) hbody
      · exact Or.inr ⟨cbuf', heq⟩

end Lines

/-! ### What an update adds -/

/-- The server goes on, and what there is in the list of newsgroups stays, with the dates of the other servers. -/
structure Gains {S : Type} (srv : NewsServer S) (F : Feed S Text) (hasserver : UInt64 → Bool) (p q : ProtNntp S) : Prop where
  later : F.Later p.server q.server
  wire : p.Wire → q.Wire
  savable : p.Wire → p.glist.Savable hasserver → q.glist.Savable hasserver
  has : ∀ {s n}, p.glist.Has s n → q.glist.Has s n
  others : ∀ t, t ≠ srv.serverid → servinfoDate t q.glist = servinfoDate t p.glist

variable {S : Type} {srv : NewsServer S} {F : Feed S Text} {hasserver : UInt64 → Bool} {stamp : ℕ → Text} {p q : ProtNntp S}

instance : Std.Refl (Gains srv F hasserver) := ⟨fun _ => ⟨.refl _, id, fun _ => id, id, fun _ _ => rfl⟩⟩

instance : IsTrans (ProtNntp S) (Gains srv F hasserver) := ⟨fun _ _ _ h h' =>
  { later := h.later.trans h'.later
    wire hw := h'.wire (h.wire hw)
    savable hw hs := h'.savable (h.wire hw) (h.savable hw hs)
    has hn := h'.has (h.has hn)
    others t ht := (h'.others t ht).trans (h.others t ht) }⟩

theorem Talk.gains (h : Talk F p q) : Gains srv F hasserver p q where
  later := h.later
  wire := h.wire
  savable _ hs := h.glist ▸ hs
  has hn := h.glist ▸ hn
  others t _ := by rw [h.glist]

/-- A line of a list. -/
structure LineGains (srv : NewsServer S) (hasserver : UInt64 → Bool) (act : Text → Grouplist → Grouplist) : Prop where
  savable : ∀ {gl line}, OneLine line → gl.Savable hasserver → (act line gl).Savable hasserver
  has : ∀ {gl line s n}, gl.Has s n → (act line gl).Has s n
  serverInfo : ∀ {gl line}, (act line gl).serverInfo = gl.serverInfo

namespace LineGains
variable {act : Text → Grouplist → Grouplist} (h : LineGains srv hasserver act)
include h

theorem foldl : ∀ {lines : List Text} {gl : Grouplist}, (∀ line ∈ lines, OneLine line) → gl.Savable hasserver →
    (lines.foldl (fun gl line => act line gl) gl).Savable hasserver
  | [], _, _, hs => hs
  | line :: lines, _, hw, hs =>
      @foldl lines _ (fun l hl => hw l (List.mem_cons_of_mem _ hl)) (h.savable (hw line List.mem_cons_self) hs)

theorem foldl_has : ∀ {lines : List Text} {gl : Grouplist} {s n}, gl.Has s n →
    (lines.foldl (fun gl line => act line gl) gl).Has s n
  | [], _, _, _, hn => hn
  | _ :: lines, _, _, _, hn => @foldl_has lines _ _ _ (h.has hn)

theorem foldl_serverInfo : ∀ {lines : List Text} {gl : Grouplist},
    (lines.foldl (fun gl line => act line gl) gl).serverInfo = gl.serverInfo
  | [], _ => rfl
  | _ :: lines, _ => (@foldl_serverInfo lines _).trans h.serverInfo

theorem foldl_gains {lines incoming : List Text} {cbuf : Text} (hsub : ∀ line ∈ incoming ++ lines, line ∈ p.incoming) :
    Gains srv F hasserver p { p with incoming, cbuf, glist := lines.foldl (fun gl line => act line gl) p.glist } where
  later := .refl _
  wire hw line hl := hw line (hsub line (List.mem_append_left _ hl))
  savable hw hs := h.foldl (fun line hl => hw line (hsub line (List.mem_append_right _ hl))) hs
  has hn := h.foldl_has hn
  others t _ := Grouplist.servinfoDate_congr (by rw [h.foldl_serverInfo])

end LineGains

theorem clean_takeWhile {line : Text} (h : OneLine line) : Clean (line.takeWhile fun c => !isBlank c) := fun c hc => by
  have hblank := List.mem_takeWhile_imp hc
  refine ⟨?_, h c ((List.takeWhile_prefix _).subset hc)⟩
  rintro rfl
  cases hblank

theorem grouplistLine_gains (hs : hasserver srv.serverid = true) : LineGains srv hasserver (grouplistLine srv.serverid) where
  savable hline hgl := @Grouplist.run_savable hasserver _ hgl (.addgroup _ _) ⟨hs, clean_takeWhile hline⟩
  has hn := Grouplist.has_addgroup.mpr (Or.inr hn)
  serverInfo := Grouplist.addgroup_serverInfo

theorem groupdescLine_gains (hs : hasserver srv.serverid = true) : LineGains srv hasserver (groupdescLine srv.serverid) where
  savable hline hgl := @Grouplist.run_savable hasserver _ hgl (.addgroupdesc _ _ _) ⟨hs, clean_takeWhile hline, fun c hc =>
    hline c ((List.dropWhile_suffix _).subset ((List.dropWhile_suffix _).subset hc))⟩
  has hn := Grouplist.has_addgroupdesc.mpr hn
  serverInfo := rfl

/-- A list that is read. -/
theorem getlines_gains {act : Text → Grouplist → Grouplist} (h : LineGains srv hasserver act) (hw : p.Wire) :
    Gains srv F hasserver p (left (getlines act p)) := by
  unfold getlines
  rcases @linesLoop_eq act p.incoming p.cbuf p.glist hw with ⟨body, rest, heq, hl, -⟩ | ⟨cbuf', heq⟩
  · rw [heq]
    refine h.foldl_gains fun line hline => ?_
    rw [hl]
    rcases List.mem_append.mp hline with hline | hline <;> simp [hline]
  · rw [heq]
    exact h.foldl_gains fun line hline => hline

theorem getlines_serverInfo {act : Text → Grouplist → Grouplist} (h : LineGains srv hasserver act) (hw : p.Wire) :
    (left (getlines act p)).glist.serverInfo = p.glist.serverInfo := by
  unfold getlines
  rcases @linesLoop_eq act p.incoming p.cbuf p.glist hw with ⟨body, rest, heq, -, -⟩ | ⟨cbuf', heq⟩ <;>
  · rw [heq]
    exact h.foldl_serverInfo

/-! ### The update -/

/-- The list has what the server had before the noted time, if there is one. -/
def Marked (F : Feed S Text) (stamp : ℕ → Text) (s : UInt64) (server : S) (gl : Grouplist) : Prop :=
  servinfoDate s gl = [] ∨ ∃ t, servinfoDate s gl = stamp t ∧ F.UpTo server t {n | gl.Has s n}

theorem Marked.later {s : UInt64} {server server' : S} {gl gl' : Grouplist} (h : Marked F stamp s server gl)
    (hl : F.Later server server') (hdate : servinfoDate s gl' = servinfoDate s gl) (hhas : ∀ n, gl.Has s n → gl'.Has s n) :
    Marked F stamp s server' gl' := by
  rcases h with h | ⟨t, h, hup⟩
  · exact Or.inl (hdate.trans h)
  · exact Or.inr ⟨t, hdate.trans h, hup.later hl fun n hn => hhas n hn⟩

section
variable (h : srv.Honest F stamp)
include h

/-- A list of groups that is asked for and read. -/
theorem groups_read (hs : hasserver srv.serverid = true) {cmd : Text} {names : S → Set Text} {r : Int32} {u : ProtNntp S}
    (hcmd : ∀ s, Lists (srv.answer cmd s).1 (names s)) (hp : p.incoming = []) (hask : stdputline srv cmd p = .ok r u)
    (hr : r / 100 = 2) (hq : nntpDogetgrouplist srv u = .ok () q) :
    ∃ s, F.Later p.server s ∧ F.Later s q.server ∧ ∀ n ∈ names s, q.glist.Has srv.serverid n := by
  obtain ⟨s, reply, hlater, ha, -, rfl⟩ := stdputline_ok h hp hask
  have hanswer : (srv.answer cmd s).1 = reply :: u.incoming := by rw [ha]
  have hwire : u.Wire := fun line hl => h.lines cmd s line (hanswer ▸ List.mem_cons_of_mem _ hl)
  have hserver : u.server = (srv.answer cmd s).2 := by rw [ha]
  unfold nntpDogetgrouplist getlines at hq
  rcases @linesLoop_eq (grouplistLine srv.serverid) u.incoming u.cbuf u.glist hwire with ⟨body, rest, heq, hl, hbody⟩
    | ⟨cbuf', heq⟩
  · rw [heq] at hq
    cases hq
    refine ⟨s, hlater, hserver ▸ h.later cmd s, fun n hn => ?_⟩
    obtain ⟨line, hline, rfl⟩ := hcmd s reply body rest (by rw [hanswer, hl]) hbody hr n hn
    -- The group is added at its line, and no line after it takes it out.
    obtain ⟨before, after, rfl⟩ := List.append_of_mem hline
    have hname : Clean (line.takeWhile fun c => !isBlank c) := clean_takeWhile (hwire line (by rw [hl]; simp))
    dsimp only
    rw [List.foldl_append, List.foldl_cons]
    refine (grouplistLine_gains hs).foldl_has (Grouplist.has_addgroup.mpr (Or.inl ⟨rfl, ?_⟩))
    exact hname.cstr.symm
  · rw [heq] at hq
    cases hq

theorem askGrouplist_talk {date : Text} : Within (Talk F) (askGrouplist srv date) :=
  .ite (fun _ => .ite (fun _ => .throw _) fun _ => (stdputline_talk h).bind fun _ => chkreply_talk)
    fun _ => (stdputline_talk h).bind fun _ => chkreply_talk

/-- What is asked for is what the list does not have yet. -/
theorem askGrouplist_ok (hs : hasserver srv.serverid = true) (hp : p.incoming = [])
    (hmark : Marked F stamp srv.serverid p.server p.glist) {u : ProtNntp S}
    (hask : askGrouplist srv (servinfoDate srv.serverid p.glist) p = .ok () u) (hq : nntpDogetgrouplist srv u = .ok () q) :
    ∃ s, F.Later p.server s ∧ F.Later s q.server ∧ ∀ x ∈ F.record s, q.glist.Has srv.serverid x.2 := by
  -- Reading what comes after the command keeps what was in the list before it.
  have htalk := (askGrouplist_talk h).ok hask
  have hgains := @getlines_gains _ srv F hasserver u _ (grouplistLine_gains hs) (htalk.wire (by simp [Wire, hp]))
  have hkeeps : ∀ n, p.glist.Has srv.serverid n → q.glist.Has srv.serverid n := fun n hn => by
    unfold nntpDogetgrouplist at hq
    rw [hq] at hgains
    exact hgains.has (htalk.glist ▸ hn)
  unfold askGrouplist at hask
  split at hask
  · next hdate =>
    split at hask
    · cases hask
    · obtain ⟨r, v, hsend, hchk⟩ := bind_eq_ok.mp hask
      obtain ⟨hr, rfl⟩ := chkreply_eq_ok hchk
      rcases hmark with hnone | ⟨t, hstamp, hup⟩
      · rw [hnone] at hdate
        cases hdate
      · have hcovers : ∀ s, Lists (srv.answer (newgroupsCommand (servinfoDate srv.serverid p.glist)) s).1
            {n | ∃ u, t ≤ u ∧ (u, n) ∈ F.record s} := fun s => by
          have hlength := h.stamp_length t
          rw [hstamp]
          refine h.newgroups s t _ _ (List.take_append_drop _ _) ?_
          rw [List.length_drop]
          omega
        obtain ⟨s, hlater, hlater', hseen⟩ := groups_read h hs hcovers hp hsend hr hq
        exact ⟨s, hlater, hlater', hup.advance hlater (fun n hn => hkeeps n hn) fun x hx ht => hseen x.2 ⟨x.1, ht, hx⟩⟩
  · obtain ⟨r, v, hsend, hchk⟩ := bind_eq_ok.mp hask
    obtain ⟨hr, rfl⟩ := chkreply_eq_ok hchk
    obtain ⟨s, hlater, hlater', hseen⟩ := groups_read h hs h.list hp hsend hr hq
    exact ⟨s, hlater, hlater', fun x hx => hseen x.2 ⟨x.1, hx⟩⟩

omit h in
/-- The list with a new date, which has all that there was at that time. -/
theorem setDate_marked {gl : Grouplist} {server s : S} {t : ℕ} (ht : t ≤ F.clock s) (hlater : F.Later s server)
    (hseen : ∀ x ∈ F.record s, gl.Has srv.serverid x.2) :
    Marked F stamp srv.serverid server (gl.setDate srv.serverid (stamp t)) := by
  have hup : F.UpTo s t {n | gl.Has srv.serverid n} := .all ht hseen
  refine Or.inr ⟨t, by rw [Grouplist.servinfoDate_setDate, if_pos rfl], hup.later hlater fun n (hn : gl.Has _ n) => ?_⟩
  exact (Grouplist.at_congr Grouplist.setDate_groups).mpr hn

/-- The time of the date that the server gives, or of the one that stands in for it. -/
theorem newdate_eq {r : Int32} {u : ProtNntp S} (hp : p.incoming = []) (hask : stdputline srv "DATE".toList p = .ok r u) :
    u.incoming = [] ∧ ∃ t ≤ F.clock u.server, (if r = 111 then u.cbuf.drop 4 else srv.localDate u.server) = stamp t := by
  obtain ⟨s, reply, -, ha, hcbuf, hr⟩ := stdputline_ok h hp hask
  have hanswer : (srv.answer "DATE".toList s).1 = reply :: u.incoming := by rw [ha]
  have hserver : (srv.answer "DATE".toList s).2 = u.server := by rw [ha]
  refine ⟨h.single hanswer (Or.inl ?_), ?_⟩
  · rintro (hcmd | hcmd) <;> cases (List.cons_prefix_cons.mp hcmd).1
  · split
    · next h111 =>
      obtain ⟨t, ht, hreply⟩ := h.date hanswer (hr ▸ h111)
      refine ⟨t, hserver ▸ ht, ?_⟩
      rw [hcbuf, hreply]
      rfl
    · exact h.localDate u.server

/-- An update so far: what it adds, and that the noted time is right. -/
def Going (srv : NewsServer S) (F : Feed S Text) (stamp : ℕ → Text) (hasserver : UInt64 → Bool) (p q : ProtNntp S) : Prop :=
  Gains srv F hasserver p q ∧ Marked F stamp srv.serverid q.server q.glist

omit h in
theorem Going.step {u : ProtNntp S} (hpu : Going srv F stamp hasserver p u) (huq : Gains srv F hasserver u q)
    (hdate : servinfoDate srv.serverid q.glist = servinfoDate srv.serverid u.glist) : Going srv F stamp hasserver p q :=
  ⟨IsTrans.trans _ _ _ hpu.1 huq, hpu.2.later huq.later hdate fun _ => huq.has⟩

omit h in
theorem Going.talk {u : ProtNntp S} (hpu : Going srv F stamp hasserver p u) (huq : Talk F u q) :
    Going srv F stamp hasserver p q :=
  hpu.step huq.gains (by rw [huq.glist])

/-- The part of `nntp_dogrouplist` behind the date. -/
theorem listing_spec (hs : hasserver srv.serverid = true) (hp : p.incoming = [])
    (hmark : Marked F stamp srv.serverid p.server p.glist) {t : ℕ} (ht : t ≤ F.clock p.server) {listing : ProtM S Unit}
    (hlisting : listing = askGrouplist srv (servinfoDate srv.serverid p.glist) >>= fun _ => nntpDogetgrouplist srv >>= fun _ =>
      modify fun p => { p with glist := p.glist.setDate srv.serverid (stamp t) }) :
    Going srv F stamp hasserver p (left (listing p)) ∧
      ∀ q, listing p = .ok () q → ∀ x ∈ F.record q.server, x.1 < F.clock p.server → q.glist.Has srv.serverid x.2 := by
  have hgoing : Going srv F stamp hasserver p p := ⟨Std.Refl.refl p, hmark⟩
  subst hlisting
  cases hask : askGrouplist srv (servinfoDate srv.serverid p.glist) p with
  | error e u =>
    rw [bind_of_error hask]
    exact ⟨hgoing.talk ((askGrouplist_talk h).error hask), fun q hq => by cases hq⟩
  | ok _ u =>
    have htalk := (askGrouplist_talk h).ok hask
    have hwire : u.Wire := htalk.wire (by simp [Wire, hp])
    have hread : Gains srv F hasserver u (left (nntpDogetgrouplist srv u)) := getlines_gains (grouplistLine_gains hs) hwire
    have hdate : servinfoDate srv.serverid (left (nntpDogetgrouplist srv u)).glist = servinfoDate srv.serverid u.glist :=
      Grouplist.servinfoDate_congr (congrArg (·.find? srv.serverid) (getlines_serverInfo (grouplistLine_gains hs) hwire))
    have hgoing' := (hgoing.talk htalk).step hread hdate
    rw [bind_of_ok hask]
    cases hget : nntpDogetgrouplist srv u with
    | error e v =>
      rw [hget] at hgoing'
      rw [bind_of_error hget]
      exact ⟨hgoing', fun q hq => by cases hq⟩
    | ok _ v =>
      rw [hget] at hgoing'
      rw [bind_of_ok hget]
      obtain ⟨s, hlater, hlater', hseen⟩ := askGrouplist_ok h hs hp hmark hask hget
      have hset : Gains srv F hasserver v { v with glist := v.glist.setDate srv.serverid (stamp t) } :=
        { later := .refl _
          wire := id
          savable := fun _ hgl => @Grouplist.run_savable hasserver _ hgl (.setDate _ _) ⟨hs, h.stamp_clean t⟩
          has := (Grouplist.at_congr Grouplist.setDate_groups).mpr
          others := fun s hs => by rw [Grouplist.servinfoDate_setDate, if_neg hs] }
      refine ⟨⟨IsTrans.trans _ _ _ hgoing'.1 hset, setDate_marked (ht.trans hlater.clock_le) hlater' hseen⟩, fun q hq => ?_⟩
      cases hq
      exact fun x hx hlt => hset.has (hseen x (hlater'.before hx (hlt.trans_le hlater.clock_le)))

/-- `nntp_dogrouplist`, which may throw: nothing is lost, and the noted time is right as before. If it does not throw, all that
    the server had before is in the list. -/
theorem nntpDogrouplist_spec (hs : hasserver srv.serverid = true) (hp : p.incoming = [])
    (hmark : Marked F stamp srv.serverid p.server p.glist) :
    Going srv F stamp hasserver p (left (nntpDogrouplist srv p)) ∧
      ∀ q, nntpDogrouplist srv p = .ok () q → ∀ x ∈ F.record q.server, x.1 < F.clock p.server →
        q.glist.Has srv.serverid x.2 := by
  -- The server's information is there from here on, at first without a date.
  let p₁ : ProtNntp S := { p with glist := p.glist.getserverinfo srv.serverid }
  have hgains₁ : Gains srv F hasserver p p₁ :=
    { later := .refl _, wire := id, savable := fun _ hgl => Grouplist.getserverinfo_savable hgl hs, has := id
      others := fun _ _ => Grouplist.servinfoDate_getserverinfo }
  have hgoing₁ : Going srv F stamp hasserver p p₁ :=
    ⟨hgains₁, hmark.later (.refl _) Grouplist.servinfoDate_getserverinfo fun _ => id⟩
  have hrest : nntpDogrouplist srv p = (stdputline srv "DATE".toList >>= fun r => get >>= fun u =>
      askGrouplist srv (servinfoDate srv.serverid p₁.glist) >>= fun _ => nntpDogetgrouplist srv >>= fun _ =>
      modify fun p => { p with
        glist := p.glist.setDate srv.serverid (if r = 111 then u.cbuf.drop 4 else srv.localDate u.server) }) p₁ := rfl
  rw [hrest]
  cases hask : stdputline srv "DATE".toList p₁ with
  | error e u =>
    rw [bind_of_error hask]
    exact ⟨hgoing₁.talk ((stdputline_talk h).error hask), fun q hq => by cases hq⟩
  | ok r u =>
    rw [bind_of_ok hask, bind_of_ok (show (get : ProtM S _) u = .ok u u from rfl)]
    have htalk := (stdputline_talk h).ok hask
    have hgoing₂ := hgoing₁.talk htalk
    obtain ⟨hincoming, t, ht, hnewdate⟩ := newdate_eq h (show p₁.incoming = [] from hp) hask
    obtain ⟨hgoing₃, hseen⟩ := listing_spec h hs hincoming hgoing₂.2 ht rfl
    rw [← htalk.glist, hnewdate]
    refine ⟨⟨IsTrans.trans _ _ _ hgoing₂.1 hgoing₃.1, hgoing₃.2⟩, fun q hq x hx hlt => hseen q hq x hx ?_⟩
    exact hlt.trans_le htalk.later.clock_le

/-- `nntp_dogroupdescriptions` adds no group and moves no date. -/
theorem nntpDogroupdescriptions_going (hs : hasserver srv.serverid = true) {u : ProtNntp S} {wildmat : Option Text}
    (hu : u.Wire) (hgoing : Going srv F stamp hasserver p u) :
    Going srv F stamp hasserver p (left (nntpDogroupdescriptions srv wildmat u)) := by
  unfold nntpDogroupdescriptions
  cases hask : stdputline srv (groupdescriptionsCommand wildmat) u with
  | error e v =>
    rw [bind_of_error hask]
    exact hgoing.talk ((stdputline_talk h).error hask)
  | ok r v =>
    have htalk := (stdputline_talk h).ok hask
    rw [bind_of_ok hask]
    split
    · exact (hgoing.talk htalk).step (getlines_gains (groupdescLine_gains hs) (htalk.wire hu))
        (Grouplist.servinfoDate_congr (congrArg (·.find? srv.serverid)
          (getlines_serverInfo (groupdescLine_gains hs) (htalk.wire hu))))
    · exact hgoing.talk htalk

/-- What `nntp_grouplist` does with a connection, however it ends. -/
theorem grouplistAttempt_spec (hs : hasserver srv.serverid = true) (hp : Ready p) (hw : p.Wire)
    (hmark : Marked F stamp srv.serverid p.server p.glist) :
    Going srv F stamp hasserver p (left (grouplistAttempt srv p)) ∧
      ∀ q, grouplistAttempt srv p = .ok () q → ∀ x ∈ F.record q.server, x.1 < F.clock p.server →
        q.glist.Has srv.serverid x.2 := by
  have hgoing : Going srv F stamp hasserver p p := ⟨Std.Refl.refl p, hmark⟩
  unfold grouplistAttempt
  cases hopen : nntpDoopen srv p with
  | error e u =>
    rw [bind_of_error hopen]
    exact ⟨hgoing.talk ((nntpDoopen_talk h).error hopen), fun q hq => by cases hq⟩
  | ok _ u =>
    have htalk := (nntpDoopen_talk h).ok hopen
    have hu := hgoing.talk htalk
    obtain ⟨hlist, hseen⟩ := nntpDogrouplist_spec h hs (nntpDoopen_ok h hp hopen) hu.2
    rw [bind_of_ok hopen]
    cases hdo : nntpDogrouplist srv u with
    | error e v =>
      rw [hdo] at hlist
      rw [bind_of_error hdo]
      exact ⟨⟨IsTrans.trans _ _ _ hu.1 hlist.1, hlist.2⟩, fun q hq => by cases hq⟩
    | ok _ v =>
      rw [hdo] at hlist
      rw [bind_of_ok hdo]
      have hv : Going srv F stamp hasserver p v := ⟨IsTrans.trans _ _ _ hu.1 hlist.1, hlist.2⟩
      have hdesc := @nntpDogroupdescriptions_going S srv F hasserver stamp v h hs v none (hv.1.wire hw) ⟨Std.Refl.refl v, hv.2⟩
      cases hgd : nntpDogroupdescriptions srv none v with
      | error e w =>
        rw [hgd] at hdesc
        rw [bind_of_error hgd]
        exact ⟨⟨IsTrans.trans _ _ _ hv.1 hdesc.1, hdesc.2⟩, fun q hq => by cases hq⟩
      | ok _ w =>
        rw [hgd] at hdesc
        rw [bind_of_ok hgd]
        have hend : Gains srv F hasserver w { w with serverOk := true } := (Talk.gains ⟨.refl _, id, rfl⟩)
        refine ⟨⟨IsTrans.trans _ _ _ hv.1 (IsTrans.trans _ _ _ hdesc.1 hend), hdesc.2⟩, fun q hq => ?_⟩
        cases hq
        intro x hx hlt
        have hlt := hlt.trans_le htalk.later.clock_le
        exact hdesc.1.has (hseen v hdo x (hdesc.1.later.before hx (hlt.trans_le hlist.1.later.clock_le)) hlt)

end

end ProtNntp

/-! ### The servers and nget -/

open ProtNntp

/-- The servers, the list of newsgroups in memory and the file that it is saved in. -/
structure GrouplistWorld (S : Type) where
  server : UInt64 → S
  glist : Grouplist := {}
  file : Option Text := none

namespace GrouplistWorld
variable {S : Type} (srv : UInt64 → NewsServer S) (F : UInt64 → Feed S Text) (hasserver : UInt64 → Bool)

/-- The connection of an update: it is new, or nothing is left to read from the last time. -/
structure Connects (s : UInt64) (st : GrouplistWorld S) (p : ProtNntp S) : Prop where
  configured : hasserver s = true
  server : p.server = st.server s
  glist : p.glist = st.glist
  ready : p.Ready
  wire : p.Wire

/-- What may happen next: time goes on at a server; an update from a server ends in some way; a server is flushed; the list is
    saved; nget starts, with the list as it was saved last. -/
inductive Step : GrouplistWorld S → GrouplistWorld S → Prop
  | later {st} (s : UInt64) (t : S) (h : (F s).Later (st.server s) t) :
    Step st { st with server := Function.update st.server s t }
  | update {st} (s : UInt64) (p : ProtNntp S) (h : Connects hasserver s st p) :
    Step st { st with
      server := Function.update st.server s (left (grouplistAttempt (srv s) p)).server
      glist := (left (grouplistAttempt (srv s) p)).glist }
  | flush {st} (s : UInt64) : Step st { st with glist := st.glist.flushserver s }
  | save {st} (text : Text) (h : st.glist.save = some text) : Step st { st with file := some text }
  | start {st} (filename : Text) : Step st { st with glist := .load hasserver filename st.file }

/-- The states from the first run of nget on. -/
inductive Reachable : GrouplistWorld S → Prop
  | first (server : UInt64 → S) : Reachable { server }
  | step {st st'} (h : Reachable st) (hs : Step srv F hasserver st st') : Reachable st'

/-- What holds all along, in memory and in the file. -/
structure Inv (stamp : ℕ → Text) (st : GrouplistWorld S) : Prop where
  savable : st.glist.Savable hasserver
  marked : ∀ s, Marked (F s) stamp s (st.server s) st.glist
  saved : ∀ text, st.file = some text → ∀ filename s, Marked (F s) stamp s (st.server s) (.load hasserver filename (some text))

variable {srv F hasserver} {stamp : ℕ → Text} {st st' : GrouplistWorld S}

theorem marked_flush {s t : UInt64} {server : S} {gl : Grouplist} (hgl : gl.Savable hasserver) (h :
    Marked (F t) stamp t server gl) :
    Marked (F t) stamp t server (gl.flushserver s) := by
  by_cases hts : t = s
  · exact Or.inl (by rw [Grouplist.servinfoDate_flushserver, if_pos hts])
  · exact h.later (.refl _) (by rw [Grouplist.servinfoDate_flushserver, if_neg hts])
      fun n hn => (Grouplist.has_flushserver hgl.sound).mpr ⟨hn, hts⟩

theorem marked_load {text filename : Text} {s : UInt64} {server : S} (hgl : st.glist.Savable hasserver)
    (hsave : st.glist.save = some text) (h : Marked (F s) stamp s server st.glist) :
    Marked (F s) stamp s server (.load hasserver filename (some text)) := by
  obtain ⟨hinfo, hgroups⟩ := @Grouplist.load_grouplistLines hasserver _ filename hgl
  rw [Grouplist.save_eq_some hsave]
  exact h.later (.refl _) (Grouplist.servinfoDate_congr (by rw [hinfo])) fun n hn => (Grouplist.at_congr hgroups).mpr hn

/-- Time at a server, and what an update adds. -/
theorem Inv.later (h : Inv F hasserver stamp st) {s : UInt64} {t : S} (hl : (F s).Later (st.server s) t) :
    Inv F hasserver stamp { st with server := Function.update st.server s t } := by
  have hupdate : ∀ u, (F u).Later (st.server u) (Function.update st.server s t u) := fun u => by
    by_cases hus : u = s
    · subst hus
      rwa [Function.update_self]
    · rw [Function.update_of_ne hus]
      exact .refl _
  exact
    { savable := h.savable
      marked := fun u => (h.marked u).later (hupdate u) rfl fun _ => id
      saved := fun text hfile filename u => (h.saved text hfile filename u).later (hupdate u) rfl fun _ => id }

variable (hid : ∀ s, (srv s).serverid = s) (hsrv : ∀ s, (srv s).Honest (F s) stamp)
include hid hsrv

theorem connects_spec (h : Inv F hasserver stamp st) {s : UInt64} {p : ProtNntp S} (hp : Connects hasserver s st p) :
    Going (srv s) (F s) stamp hasserver p (left (grouplistAttempt (srv s) p)) ∧
      ∀ q, grouplistAttempt (srv s) p = .ok () q → ∀ x ∈ (F s).record q.server, x.1 < (F s).clock (st.server s) →
        q.glist.Has s x.2 := by
  have hmark : Marked (F s) stamp (srv s).serverid p.server p.glist := by
    rw [hid, hp.server, hp.glist]
    exact h.marked s
  have hs : hasserver (srv s).serverid = true := (hid s).symm ▸ hp.configured
  obtain ⟨hgoing, hseen⟩ := grouplistAttempt_spec (hsrv s) hs hp.ready hp.wire hmark
  refine ⟨hgoing, fun q hq x hx hlt => ?_⟩
  rw [← hp.server] at hlt
  have hhas := hseen q hq x hx hlt
  rwa [hid] at hhas

theorem Inv.step (h : Inv F hasserver stamp st) (hs : Step srv F hasserver st st') : Inv F hasserver stamp st' := by
  cases hs with
  | later s t hl => exact h.later hl
  | update s p hp =>
    obtain ⟨⟨hgains, hmark⟩, -⟩ := connects_spec hid hsrv h hp
    have hserver := hp.server ▸ hgains.later
    have hlater := h.later hserver
    refine { savable := hgains.savable hp.wire (hp.glist.symm ▸ h.savable), marked := fun u => ?_, saved := hlater.saved }
    by_cases hus : u = s
    · subst hus
      rw [hid] at hmark
      dsimp only
      rwa [Function.update_self]
    · refine (hlater.marked u).later (.refl _) ?_ fun n hn => hgains.has (hp.glist.symm ▸ hn)
      rw [hgains.others u (by rwa [hid]), hp.glist]
  | flush s =>
    exact
      { savable := @Grouplist.run_savable hasserver _ h.savable (.flushserver s) trivial
        marked := fun t => marked_flush h.savable (h.marked t)
        saved := h.saved }
  | save text hsave =>
    refine { savable := h.savable, marked := h.marked, saved := fun text' htext filename s => ?_ }
    cases htext
    exact marked_load h.savable hsave (h.marked s)
  | start filename =>
    refine { savable := Grouplist.load_savable, marked := fun s => ?_, saved := h.saved }
    dsimp only
    cases hfile : st.file with
    | none => exact Or.inl rfl
    | some text => exact h.saved text hfile filename s

theorem reachable_inv (h : Reachable srv F hasserver st) : Inv F hasserver stamp st := by
  induction h with
  | first server =>
    refine ⟨@Grouplist.load_savable hasserver [] none, fun _ => Or.inl rfl, fun _ hfile => ?_⟩
    cases hfile
  | step _ hs ih => exact ih.step hid hsrv hs

end GrouplistWorld

/-- Whatever the servers and nget did, in whatever order, a group that a server created before the noted time is in the list, and
    an update from a server that does not throw leaves the list with every group that the server has from before it. -/
theorem grouplist_misses_no_group {S : Type} {srv : UInt64 → NewsServer S} {F : UInt64 → Feed S Text} {stamp : ℕ → Text}
    {hasserver : UInt64 → Bool} (hid : ∀ s, (srv s).serverid = s) (hsrv : ∀ s, (srv s).Honest (F s) stamp)
    {st : GrouplistWorld S} (hst : GrouplistWorld.Reachable srv F hasserver st) :
    (∀ s, servinfoDate s st.glist ≠ [] → ∃ t, servinfoDate s st.glist = stamp t ∧
      ∀ x ∈ (F s).record (st.server s), x.1 < t → st.glist.Has s x.2) ∧
    ∀ s p q, GrouplistWorld.Connects hasserver s st p → grouplistAttempt (srv s) p = .ok () q →
      ∀ x ∈ (F s).record q.server, x.1 < (F s).clock (st.server s) → q.glist.Has s x.2 := by
  have hinv := GrouplistWorld.reachable_inv hid hsrv hst
  refine ⟨fun s hdate => ?_, fun s p q hp hq => (GrouplistWorld.connects_spec hid hsrv hinv hp).2 q hq⟩
  obtain ⟨t, hstamp, hup⟩ := (hinv.marked s).resolve_left hdate
  exact ⟨t, hstamp, hup.known⟩

/-! A server with a clock that has two groups, of which the second is created at seven. -/

def sampleGroups : List (ℕ × Text) := [(1, "alt.a".toList), (7, "alt.b".toList)]

def sampleStamp (t : ℕ) : Text := (List.range 14).map fun i => Nat.digitChar (t / 10 ^ (13 - i) % 10)

def sampleNames (s : ℕ) : List Text := (sampleGroups.filter fun g => g.1 ≤ s).map (·.2)

def sampleServer (serverid : UInt64) : NewsServer ℕ where
  serverid
  answer cmd s :=
    if cmd = "DATE".toList then (["111 ".toList ++ sampleStamp s], s + 1)
    else if cmd = "LIST".toList || "NEWGROUPS".toList.isPrefixOf cmd then
      ("215 list".toList :: (sampleNames s ++ [['.']]), s + 1)
    else (["503 no".toList], s + 1)
  localDate := sampleStamp

def sampleFeed : Feed ℕ Text where
  clock := id
  record s := {g | g ∈ sampleGroups ∧ g.1 ≤ s}

theorem sampleNames_mem {s : ℕ} {line : Text} (h : line ∈ sampleNames s) : line = "alt.a".toList ∨ line = "alt.b".toList := by
  obtain ⟨g, hg, rfl⟩ := List.mem_map.mp h
  have hg := (List.mem_filter.mp hg).1
  simp only [sampleGroups, List.mem_cons, List.not_mem_nil, or_false] at hg
  rcases hg with rfl | rfl
  · exact Or.inl rfl
  · exact Or.inr rfl

theorem sampleStamp_clean (t : ℕ) : Clean (sampleStamp t) := fun c hc => by
  obtain ⟨i, -, rfl⟩ := List.mem_map.mp hc
  have hlt : t / 10 ^ (13 - i) % 10 < 10 := Nat.mod_lt _ (by decide)
  generalize t / 10 ^ (13 - i) % 10 = k at hlt
  interval_cases k <;> decide

theorem takeWhile_dot {lines rest : List Text} (h : ['.'] ∉ lines) :
    (lines ++ ['.'] :: rest).takeWhile (fun line => line ≠ ['.']) = lines := by
  have hlines : ∀ line ∈ lines, decide (line ≠ ['.']) = true := fun line hl => decide_eq_true fun heq => h (heq ▸ hl)
  rw [List.takeWhile_append_of_pos hlines]
  simp

theorem sampleNames_lists {s : ℕ} :
    Lists ("215 list".toList :: (sampleNames s ++ [['.']])) {n | ∃ t, (t, n) ∈ sampleFeed.record s} := by
  intro reply body rest heq hbody _ n hn
  obtain ⟨-, heq⟩ := List.cons.inj heq
  obtain ⟨t, hg, ht⟩ := hn
  have hdot : ['.'] ∉ sampleNames s := fun h => by
    rcases sampleNames_mem h with h | h <;> cases (List.cons.inj h).1
  have hnames : sampleNames s = body := by rw [← takeWhile_dot hdot, heq, takeWhile_dot hbody]
  have hmem : n ∈ sampleNames s := List.mem_map.mpr ⟨(t, n), List.mem_filter.mpr ⟨hg, decide_eq_true ht⟩, rfl⟩
  refine ⟨n, hnames ▸ hmem, ?_⟩
  rcases sampleNames_mem hmem with rfl | rfl <;> decide

/-- The answers of the server. -/
theorem sampleServer_answer (serverid : UInt64) (cmd : Text) (s : ℕ) :
    (cmd = "DATE".toList ∧ (sampleServer serverid).answer cmd s = (["111 ".toList ++ sampleStamp s], s + 1)) ∨
    (ListCommand cmd ∧ (sampleServer serverid).answer cmd s = ("215 list".toList :: (sampleNames s ++ [['.']]), s + 1)) ∨
    (sampleServer serverid).answer cmd s = (["503 no".toList], s + 1) := by
  unfold sampleServer
  dsimp only
  split
  · exact Or.inl ⟨‹_›, rfl⟩
  · split
    · next hlist =>
      refine Or.inr (Or.inl ⟨?_, rfl⟩)
      rcases (Bool.or_eq_true _ _).mp hlist with h | h
      · exact Or.inl (of_decide_eq_true h ▸ List.prefix_refl _)
      · exact Or.inr (List.isPrefixOf_iff_prefix.mp h)
    · exact Or.inr (Or.inr rfl)

theorem sampleServer_honest (serverid : UInt64) : (sampleServer serverid).Honest sampleFeed sampleStamp where
  stamp_length t := by simp [sampleStamp]
  stamp_clean := sampleStamp_clean
  later cmd s := by
    have hnext : ((sampleServer serverid).answer cmd s).2 = s + 1 := by
      rcases sampleServer_answer serverid cmd s with ⟨-, h⟩ | ⟨-, h⟩ | h <;> rw [h]
    rw [hnext]
    refine ⟨Nat.le_succ s, fun x hx => ?_⟩
    rcases Nat.lt_or_ge s x.1 with hlt | hle
    · exact Or.inr hlt.le
    · exact Or.inl ⟨hx.1, hle⟩
  lines cmd s line hl := by
    have hstamp := sampleStamp_clean s
    rcases sampleServer_answer serverid cmd s with ⟨-, h⟩ | ⟨-, h⟩ | h <;> rw [h] at hl
    · cases List.mem_singleton.mp hl
      exact OneLine.append (by decide) fun c hc => (hstamp c hc).2
    · rcases List.mem_cons.mp hl with rfl | hl
      · decide
      · rcases List.mem_append.mp hl with hl | hl
        · rcases sampleNames_mem hl with rfl | rfl <;> decide
        · cases List.mem_singleton.mp hl
          decide
    · cases List.mem_singleton.mp hl
      decide
  single {cmd s reply rest} ha hcmd := by
    rcases sampleServer_answer serverid cmd s with ⟨-, h⟩ | ⟨hlist, h⟩ | h <;> rw [h] at ha <;> cases ha
    · rfl
    · exact absurd hcmd (by simp only [hlist, not_true, false_or]; decide)
    · rfl
  date {s reply rest} ha _ := ⟨s, Nat.le_succ s, by cases ha; rfl⟩
  localDate s := ⟨s, le_rfl, rfl⟩
  list s := sampleNames_lists
  newgroups s t d h _ _ := by
    have hcmd : "NEWGROUPS".toList <+: "NEWGROUPS ".toList ++ d ++ ' ' :: h ++ " GMT".toList :=
      ⟨' ' :: (d ++ ' ' :: h ++ " GMT".toList), rfl⟩
    rcases sampleServer_answer serverid ("NEWGROUPS ".toList ++ d ++ ' ' :: h ++ " GMT".toList) s with ⟨h, -⟩ | ⟨-, h⟩ | h
    · cases (List.cons.inj h).1
    · rw [h]
      intro reply body rest heq hbody hreply n hn
      obtain ⟨u, -, hu⟩ := hn
      exact sampleNames_lists reply body rest heq hbody hreply n ⟨u, hu⟩
    · rw [h]
      intro reply body rest heq
      exact absurd (List.cons.inj heq).2.symm (by simp)

def sampleConnection : ProtNntp ℕ where
  server := 3
  incoming := ["200 ready".toList]

theorem sampleConnection_connects : GrouplistWorld.Connects (fun _ => true) 1 { server := fun _ => 3 } sampleConnection where
  configured := rfl
  server := rfl
  glist := rfl
  ready := by
    unfold ProtNntp.Ready
    decide
  wire := by
    unfold ProtNntp.Wire
    decide

/-- What the first update leaves, which asks for the whole list. -/
def sampleListed : ProtNntp ℕ := left (grouplistAttempt (sampleServer 1) sampleConnection)

/-- The connection of the next update, at nine, which asks for new groups. -/
def sampleReconnection : ProtNntp ℕ where
  server := 9
  glist := sampleListed.glist
  incoming := ["200 ready".toList]

/-- The state between the updates. -/
def sampleWorld : GrouplistWorld ℕ where
  server := Function.update (Function.update (fun _ => 3) 1 sampleListed.server) 1 9
  glist := sampleListed.glist

theorem sampleWorld_reachable : GrouplistWorld.Reachable sampleServer (fun _ => sampleFeed) (fun _ => true) sampleWorld := by
  have hlater : sampleFeed.Later (Function.update (fun _ => 3) 1 sampleListed.server (1 : UInt64)) 9 := by
    rw [Function.update_self]
    refine ⟨by decide, fun x hx => ?_⟩
    rcases Nat.lt_or_ge sampleListed.server x.1 with hlt | hle
    · exact Or.inr hlt.le
    · exact Or.inl ⟨hx.1, hle⟩
  exact .step (.step (.first _) (.update 1 sampleConnection sampleConnection_connects)) (.later 1 9 hlater)

theorem sampleReconnection_connects : GrouplistWorld.Connects (fun _ => true) 1 sampleWorld sampleReconnection where
  configured := rfl
  server := (Function.update_self (1 : UInt64) (9 : ℕ) (Function.update (fun _ => 3) 1 sampleListed.server)).symm
  glist := rfl
  ready := by
    unfold ProtNntp.Ready
    decide
  wire := by
    unfold ProtNntp.Wire
    decide

/-- The first update notes the time and has one group; the group that is created after it comes with the second. -/
theorem grouplist_misses_no_group_sample :
    servinfoDate 1 sampleListed.glist = sampleStamp 4 ∧ sampleListed.glist.Has 1 "alt.a".toList ∧
      (left (grouplistAttempt (sampleServer 1) sampleReconnection)).glist.Has 1 "alt.b".toList := by
  obtain ⟨-, hfirst⟩ := @grouplist_misses_no_group ℕ sampleServer (fun _ => sampleFeed) sampleStamp (fun _ => true) (fun _ => rfl)
    sampleServer_honest { server := fun _ => 3 } (.first _)
  obtain ⟨-, hsecond⟩ := @grouplist_misses_no_group ℕ sampleServer (fun _ => sampleFeed) sampleStamp (fun _ => true) (fun _ => rfl)
    sampleServer_honest _ sampleWorld_reachable
  refine ⟨by decide, hfirst 1 sampleConnection _ sampleConnection_connects rfl (1, "alt.a".toList) ⟨by decide, by decide⟩ (by decide),
    hsecond 1 sampleReconnection _ sampleReconnection_connects rfl (7, "alt.b".toList) ⟨by decide, by decide⟩ ?_⟩
  rw [← sampleReconnection_connects.server]
  decide

end Nget
