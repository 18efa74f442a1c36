import Nget.Conversation
import Nget.Lib.Feed
import Nget.Theorems.GrouplistSave
import Mathlib

/-! What a server is promised to do in a conversation (RFC 977), and what the parts of one come to with such a server: a
    command goes out when nothing is left to read, and what is read next is the answer to it. -/

namespace Nget
open CString Outcome

/-- An answer that is accepted and goes on to its dot has lines for these groups. -/
def Lists (answer : List Text) (names : Set Text) : Prop :=
  ∀ reply body rest, answer = reply :: (body ++ ['.'] :: rest) → ['.'] ∉ body → atoi reply / 100 = 2 →
    ∀ n ∈ names, ∃ line ∈ body, (line.takeWhile fun c => !ProtNntp.isBlank c) = n

/-- The commands that are answered with more than a line. -/
def ListCommand (cmd : Text) : Prop := "LIST".toList <+: cmd ∨ "NEWGROUPS".toList <+: cmd

/-- A server that keeps a record of its groups and answers as it is documented, though it may fall silent at any point of
    an answer. `stamp` writes a time as the fourteen digits of a date. -/
structure NewsServer.Honest {S : Type} (srv : NewsServer S) (F : Feed S Text) (stamp : ℕ → Text) : Prop where
  stamp_length : ∀ t, (stamp t).length = 14
  stamp_clean : ∀ t, Clean (stamp t)
  later : ∀ cmd s, F.Later s (srv.answer cmd s).2
  lines : ∀ cmd s, ∀ line ∈ (srv.answer cmd s).1, OneLine line
  single : ∀ {cmd s reply rest}, (srv.answer cmd s).1 = reply :: rest → ¬ListCommand cmd ∨ atoi reply / 100 ≠ 2 → rest = []
  date : ∀ {s reply rest}, (srv.answer "DATE".toList s).1 = reply :: rest → atoi reply = 111 →
    ∃ t ≤ F.clock (srv.answer "DATE".toList s).2, reply = "111 ".toList ++ stamp t
  /-- This side's clock is not ahead of the server's. -/
  localDate : ∀ s, ∃ t ≤ F.clock s, srv.localDate s = stamp t
  list : ∀ s, Lists (srv.answer "LIST".toList s).1 {n | ∃ t, (t, n) ∈ F.record s}
  newgroups : ∀ s t d h, d ++ h = stamp t → h.length = 6 →
    Lists (srv.answer ("NEWGROUPS ".toList ++ d ++ ' ' :: h ++ " GMT".toList) s).1 {n | ∃ u, t ≤ u ∧ (u, n) ∈ F.record s}

namespace ProtNntp
variable {S : Type} {srv : NewsServer S} {F : Feed S Text} {stamp : ℕ → Text} {p q : ProtNntp S} {r : Int32} {cmd : Text}

/-- What is left to read are lines. -/
def Wire (p : ProtNntp S) : Prop := ∀ line ∈ p.incoming, OneLine line

/-- The server goes on, and the list of newsgroups is left alone. -/
structure Talk (F : Feed S Text) (p q : ProtNntp S) : Prop where
  later : F.Later p.server q.server
  wire : p.Wire → q.Wire
  glist : q.glist = p.glist

instance : Std.Refl (Talk F) := ⟨fun p => ⟨.refl p.server, id, rfl⟩⟩

instance : IsTrans (ProtNntp S) (Talk F) := ⟨fun _ _ _ h h' =>
  ⟨h.later.trans h'.later, h'.wire ∘ h.wire, h'.glist.trans h.glist⟩⟩

theorem getline_talk : Within (Talk F) (getline : ProtM S Unit) := fun p => by
  unfold getline
  cases hp : p.incoming with
  | nil => exact ⟨.refl _, id, rfl⟩
  | cons line rest => exact ⟨.refl _, fun hw line hl => hw line (hp ▸ List.mem_cons_of_mem _ hl), rfl⟩

theorem getreply_talk : Within (Talk F) (getreply : ProtM S Int32) :=
  getline_talk.bind fun _ => Within.get.bind fun _ => .pure _

theorem chkreply_talk : Within (Talk F) (chkreply r : ProtM S Unit) :=
  Within.get.bind fun _ => .ite
    (fun _ => (Within.modify fun p => ⟨.refl p.server, id, rfl⟩).bind fun _ => .throw _)
    (fun _ => .ite (fun _ => .throw _) fun _ => .pure _)

theorem putline_talk (h : srv.Honest F stamp) : Within (Talk F) (putline srv cmd) := fun p =>
  ⟨h.later cmd p.server, fun hw line hl => (List.mem_append.mp hl).elim (hw line) (h.lines cmd p.server line), rfl⟩

theorem nntpAuth_talk (h : srv.Honest F stamp) : Within (Talk F) (nntpAuth srv) :=
  .ite (fun _ => .throw _) fun _ => (putline_talk h).bind fun _ => getreply_talk.bind fun _ => .ite
    (fun _ => .ite (fun _ => .throw _) fun _ => (putline_talk h).bind fun _ => getreply_talk.bind fun _ => chkreply_talk)
    fun _ => chkreply_talk

theorem stdputline_talk (h : srv.Honest F stamp) : Within (Talk F) (stdputline srv cmd) :=
  (putline_talk h).bind fun _ => getreply_talk.bind fun _ => .ite
    (fun _ => (nntpAuth_talk h).bind fun _ => (putline_talk h).bind fun _ => getreply_talk) fun _ => .pure _

theorem nntpDoopen_talk (h : srv.Honest F stamp) : Within (Talk F) (nntpDoopen srv) :=
  Within.get.bind fun _ => .ite
    (fun _ => getreply_talk.bind fun _ => chkreply_talk.bind fun _ => (putline_talk h).bind fun _ => getline_talk.bind fun _ =>
      .modify fun p => ⟨.refl p.server, id, rfl⟩)
    fun _ => .pure _

/-! ### What is read -/

theorem getline_eq_ok : getline p = .ok () q ↔
    ∃ line, p.incoming = line :: q.incoming ∧ q = { p with incoming := q.incoming, cbuf := cstr line } := by
  unfold getline
  cases hp : p.incoming with
  | nil => simp
  | cons line rest =>
    constructor
    · intro h
      cases h
      exact ⟨line, rfl, rfl⟩
    · rintro ⟨_, hline, hq⟩
      cases hline
      exact congrArg (EStateM.Result.ok ()) hq.symm

theorem getreply_eq_ok : getreply p = .ok r q ↔
    ∃ line, p.incoming = line :: q.incoming ∧ q = { p with incoming := q.incoming, cbuf := cstr line } ∧ r = atoi q.cbuf := by
  constructor
  · intro h
    obtain ⟨_, u, hline, hr⟩ := bind_eq_ok.mp h
    obtain ⟨_, _, hget, hr⟩ := bind_eq_ok.mp hr
    cases hget
    cases hr
    obtain ⟨line, hp, hu⟩ := getline_eq_ok.mp hline
    exact ⟨line, hp, hu, rfl⟩
  · rintro ⟨line, hp, hq, rfl⟩
    exact bind_of_ok (getline_eq_ok.mpr ⟨line, hp, hq⟩)

theorem chkreply_eq_ok (h : chkreply r p = .ok () q) : r / 100 = 2 ∧ q = p := by
  unfold chkreply at h
  obtain ⟨_, _, hget, h⟩ := bind_eq_ok.mp h
  cases hget
  split at h
  · cases h
  · split at h
    · cases h
    · next hr =>
      cases h
      exact ⟨not_not.mp hr, rfl⟩

/-- The command and its reply, when nothing is left to read. -/
theorem send_ok (hp : p.incoming = []) (h : (putline srv cmd >>= fun _ => getreply) p = .ok r q) :
    ∃ reply, srv.answer cmd p.server = (reply :: q.incoming, q.server) ∧ q.cbuf = cstr reply ∧ r = atoi (cstr reply) := by
  obtain ⟨_, u, hput, hget⟩ := bind_eq_ok.mp h
  cases hput
  obtain ⟨reply, hline, hq, hr⟩ := getreply_eq_ok.mp hget
  have hcbuf : q.cbuf = cstr reply := by rw [hq]
  have hserver : q.server = (srv.answer cmd p.server).2 := by rw [hq]
  have hlines : p.incoming ++ (srv.answer cmd p.server).1 = reply :: q.incoming := hline
  rw [hp, List.nil_append] at hlines
  exact ⟨reply, Prod.ext hlines hserver.symm, hcbuf, hcbuf ▸ hr⟩

variable (h : srv.Honest F stamp)
include h

theorem reply_eq {s s' : S} {reply : Text} {rest : List Text} (ha : srv.answer cmd s = (reply :: rest, s')) :
    cstr reply = reply :=
  (h.lines cmd s reply (by rw [ha]; exact List.mem_cons_self)).cstr

/-- A command that is answered with a line leaves nothing to read. -/
theorem send_single (hp : p.incoming = []) (hr : (putline srv cmd >>= fun _ => getreply) p = .ok r q)
    (hcmd : ¬ListCommand cmd ∨ r / 100 ≠ 2) : q.incoming = [] := by
  obtain ⟨reply, ha, -, hr⟩ := send_ok hp hr
  refine h.single (by rw [ha]) (hcmd.imp id fun hr' => ?_)
  rwa [hr, reply_eq h ha] at hr'

theorem nntpAuth_ok (hp : p.incoming = []) (hq : nntpAuth srv p = .ok () q) : q.incoming = [] := by
  have hauth : ∀ cmd : Text, ¬ListCommand ("AUTHINFO ".toList ++ cmd) := by
    rintro cmd (hcmd | hcmd) <;> cases (List.cons_prefix_cons.mp hcmd).1
  unfold nntpAuth at hq
  split at hq
  · cases hq
  · obtain ⟨i, u, hsend, hq⟩ := bind_bind_eq_ok.mp hq
    have hu := send_single h hp hsend (Or.inl (hauth ("USER ".toList ++ srv.user)))
    split at hq
    · split at hq
      · cases hq
      · obtain ⟨i, v, hsend, hq⟩ := bind_bind_eq_ok.mp hq
        rw [(chkreply_eq_ok hq).2]
        exact send_single h hu hsend (Or.inl (hauth ("PASS ".toList ++ srv.pass)))
    · rw [(chkreply_eq_ok hq).2]
      exact hu

/-- The reply to a command is the start of the server's answer to it, with the rest of it to read. -/
theorem stdputline_ok (hp : p.incoming = []) (hq : stdputline srv cmd p = .ok r q) :
    ∃ s reply, F.Later p.server s ∧ srv.answer cmd s = (reply :: q.incoming, q.server) ∧ q.cbuf = reply ∧ r = atoi reply := by
  unfold stdputline at hq
  obtain ⟨i, u, hsend, hq⟩ := bind_bind_eq_ok.mp hq
  split at hq
  · -- The reply asks for an authorization, after which nothing is left to read.
    next hi =>
    have hi : i / 100 ≠ 2 := by
      rcases (Bool.or_eq_true _ _).mp hi with hi | hi <;> rw [of_decide_eq_true hi] <;> decide
    obtain ⟨_, v, hauth, hq⟩ := bind_eq_ok.mp hq
    have hv := nntpAuth_ok h (send_single h hp hsend (Or.inr hi)) hauth
    obtain ⟨reply, ha, hcbuf, hr⟩ := send_ok hv hq
    rw [reply_eq h ha] at hcbuf hr
    have htalk := ((putline_talk h).bind fun _ => getreply_talk).ok hsend
    exact ⟨v.server, reply, htalk.later.trans ((nntpAuth_talk h).ok hauth).later, ha, hcbuf, hr⟩
  · cases hq
    obtain ⟨reply, ha, hcbuf, hr⟩ := send_ok hp hsend
    rw [reply_eq h ha] at hcbuf hr
    exact ⟨p.server, reply, .refl _, ha, hcbuf, hr⟩

/-- A new connection has the greeting to read. -/
def Ready (p : ProtNntp S) : Prop := if p.freshconnect then p.incoming.length ≤ 1 else p.incoming = []

theorem nntpDoopen_ok (hp : Ready p) (hq : nntpDoopen srv p = .ok () q) : q.incoming = [] := by
  unfold nntpDoopen at hq
  obtain ⟨_, _, hget, hq⟩ := bind_eq_ok.mp hq
  cases hget
  unfold Ready at hp
  split at hq
  · next hfresh =>
    rw [if_pos hfresh] at hp
    obtain ⟨i, u, hgreet, hq⟩ := bind_eq_ok.mp hq
    obtain ⟨_, v, hchk, hq⟩ := bind_eq_ok.mp hq
    obtain ⟨line, hline, -⟩ := getreply_eq_ok.mp hgreet
    have hv : v.incoming = [] := by
      rw [(chkreply_eq_ok hchk).2]
      rw [hline, List.length_cons] at hp
      exact List.length_eq_zero_iff.mp (by omega)
    obtain ⟨_, w, hput, hq⟩ := bind_eq_ok.mp hq
    cases hput
    obtain ⟨_, x, hget, hq⟩ := bind_eq_ok.mp hq
    cases hq
    obtain ⟨line, hline, -⟩ := getline_eq_ok.mp hget
    have hanswer : v.incoming ++ (srv.answer "MODE READER".toList v.server).1 = line :: x.incoming := hline
    rw [hv, List.nil_append] at hanswer
    refine h.single hanswer (Or.inl ?_)
    rintro (hcmd | hcmd) <;> cases (List.cons_prefix_cons.mp hcmd).1
  · next hfresh =>
    cases hq
    rwa [if_neg hfresh] at hp

end ProtNntp
end Nget
