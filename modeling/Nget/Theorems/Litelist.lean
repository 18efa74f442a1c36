import Nget.Litelist
import Nget.Theorems.Lines

/-! The litelist's writer and reader agree. A record is a flag and lines that the flag says nothing of, so
    the file is the flags of its records over one text; a run of `dofile` reads the records in order and
    sets the flags of those that it downloads. -/

namespace Nget
open CString

/-! ### The lines of a record -/

/-- The line with its line feed is shorter than `dofile`'s buffer. -/
def FitsBuffer (line : Text) : Prop := OneLine line ∧ line.length + 1 < 2048

instance : DecidablePred FitsBuffer := fun line => inferInstanceAs (Decidable (OneLine line ∧ line.length + 1 < 2048))

/-- The line of a server. -/
def ServerLogin.line (whost : ServerLogin) : Text := whost.addr ++ '\t' :: (whost.user ++ '\t' :: whost.pass)

namespace QueuedPart

/-- What the litelist can hold. -/
structure Writable (q : QueuedPart) : Prop where
  group : FitsBuffer (q.group.getD [])
  fn : FitsBuffer q.fn
  login : ∀ h ∈ q.sap, FitsBuffer h.2.line
  addr : ∀ h ∈ q.sap, '\t' ∉ h.2.addr
  user : ∀ h ∈ q.sap, '\t' ∉ h.2.user
  messageid : q.group = none → FitsBuffer q.part.messageid

/-- What the article is asked for by: its number in the group, or else the message-id. -/
def article (q : QueuedPart) (sa : NntpServerArticle) : Text :=
  match q.group with
  | some _ => printUlong sa.articlenum
  | none => q.part.messageid

/-- The host that a server is read back as. -/
def host (q : QueuedPart) (h : NntpServerArticle × ServerLogin) : Lite.Host :=
  ⟨h.2.addr, some h.2.user, some h.2.pass, q.article h.1, h.1.bytes, h.1.lines⟩

def hosts (q : QueuedPart) : List Lite.Host := q.sap.map q.host

/-- The lines of a host. -/
def hostText (q : QueuedPart) (h : NntpServerArticle × ServerLogin) : Text :=
  h.2.line ++ '\n' :: (q.article h.1 ++ '\n' :: (printUlong h.1.bytes ++ '\n' :: (printUlong h.1.lines ++ ['\n'])))

/-- What stands between the flag and the hosts. -/
def head (q : QueuedPart) : Text :=
  '\n' :: (q.group.getD [] ++ '\n' :: (q.fn ++ '\n' :: (printUlong (UInt64.ofNat q.sap.length) ++ ['\n'])))

/-- What stands behind the flag. -/
def text (q : QueuedPart) : Text := q.head ++ q.sap.flatMap q.hostText

end QueuedPart

def flagChar (done : Bool) : Char := if done then '1' else '0'

/-- The litelist of these parts with a flag for each. -/
def litelist (l : List (Bool × QueuedPart)) : Text := l.flatMap fun (done, q) => flagChar done :: q.text

theorem nntpDowriteliteArticle_eq (q : QueuedPart) :
    nntpDowriteliteArticle q.group q.part q.sap q.fn = flagChar false :: q.text := by
  obtain ⟨group, part, sap, fn⟩ := q
  unfold nntpDowriteliteArticle QueuedPart.text QueuedPart.head QueuedPart.hostText QueuedPart.article ServerLogin.line
  cases group <;> simp [flagChar]

/-- The writer's file is the litelist with no flag set. -/
theorem writelite_eq (queue : List QueuedPart) : writelite queue = litelist (queue.map (false, ·)) := by
  have hgen : ∀ (queue : List QueuedPart) (fw : Text),
      queue.foldl (fun fw q => fw ++ nntpDowriteliteArticle q.group q.part q.sap q.fn) fw = fw ++
        litelist (queue.map (false, ·)) := by
    intro queue
    induction queue with
    | nil => simp [litelist]
    | cons q queue ih =>
      intro fw
      rw [List.foldl_cons, ih, nntpDowriteliteArticle_eq]
      simp [litelist]
  rw [writelite, hgen, List.nil_append]

namespace Lite
variable {pre mid rest line : Text}

/-! ### Reading the lines back -/

theorem printUlong_fits (n : UInt64) : FitsBuffer (printUlong n) := by
  have hlen : (printUlong n).length ≤ 20 :=
    Nat.toDigits_length 10 n.toNat 20 (by decide) (n.toNat_lt.trans (by decide))
  exact ⟨.printUlong n, by omega⟩

theorem endsLine_false (h : OneLine line) : endsLine line = false := by
  unfold endsLine
  cases hlast : line.getLast? with
  | none => rfl
  | some c =>
    obtain ⟨hcr, hlf, -⟩ := h c (List.mem_of_getLast? hlast)
    simp [hcr, hlf]

theorem bfgets_line (h : FitsBuffer line) : bfgets (.between pre (line ++ '\n' :: rest)) =
    (some line, .between (pre ++ (line ++ ['\n'])) rest) := by
  have hcstr : cstr (line ++ ['\n']) = line ++ ['\n'] := cstr_of_not_mem fun hm => by
    rcases List.mem_append.mp hm with hm | hm
    · exact h.1.nul hm
    · exact absurd (List.mem_singleton.mp hm) (by decide)
  have hends : endsLine (line ++ ['\n']) = true := by simp [endsLine]
  unfold bfgets
  rw [Stdio.fgets_line h.1.newline h.2]
  simp [hcstr, hends, endsLine_false h.1]

theorem bfgets_end : bfgets (.between pre []) = (none, { Stdio.between pre [] with eof := true }) := by
  unfold bfgets
  rw [Stdio.fgets_end (by decide)]
  rfl

theorem cutTab_append {addr : Text} (h : '\t' ∉ addr) : cutTab (addr ++ '\t' :: rest) = (addr, some rest) := by
  have hpos : ∀ c ∈ addr, decide (c ≠ '\t') = true := fun c hc => by simpa using fun heq : c = '\t' => h (heq ▸ hc)
  unfold cutTab
  rw [List.dropWhile_append_of_pos hpos, List.takeWhile_append_of_pos hpos]
  simp

variable {q : QueuedPart} {h : NntpServerArticle × ServerLogin}

theorem article_fits (hq : q.Writable) (sa : NntpServerArticle) : FitsBuffer (q.article sa) := by
  unfold QueuedPart.article
  cases hgroup : q.group with
  | some group => exact printUlong_fits sa.articlenum
  | none => exact hq.messageid hgroup

theorem hostLine_line (haddr : '\t' ∉ h.2.addr) (huser : '\t' ∉ h.2.user) :
    hostLine h.2.line = (h.2.addr, some h.2.user, some h.2.pass) := by
  unfold hostLine ServerLogin.line
  rw [cutTab_append haddr]
  dsimp only
  rw [cutTab_append huser]

/-- The lines of a host are read as what was written. -/
theorem readHost_text (hq : q.Writable) (hh : h ∈ q.sap) :
    readHost (.between pre (q.hostText h ++ rest)) = (some (q.host h), .between (pre ++ q.hostText h) rest) := by
  unfold readHost QueuedPart.hostText
  simp only [List.append_assoc, List.cons_append, List.nil_append]
  rw [bfgets_line (hq.login h hh)]
  dsimp only
  rw [bfgets_line (article_fits hq h.1)]
  dsimp only
  rw [bfgets_line (printUlong_fits h.1.bytes)]
  dsimp only
  rw [bfgets_line (printUlong_fits h.1.lines)]
  have hbytes := @atoul_printUlong [] h.1.bytes (by simp)
  have hlines := @atoul_printUlong [] h.1.lines (by simp)
  rw [List.append_nil] at hbytes hlines
  simp [hostLine_line (hq.addr h hh) (hq.user h hh), QueuedPart.host, hbytes, hlines]

/-! ### The hosts of a record -/

section
variable {W : Type} {out : Outside W} {maxretry : Int32} {st st' : HostState W} {left : Left}

/-- A download raises an `ApplicationExFatal`. -/
def Exits (out : Outside W) : Prop := ∃ group outfile host w, (download out group outfile host w).1 = .error .applicationFatal

/-- What the loop over the hosts keeps true: the stream is behind what was read of the record, with the flag
    of the record at its place. -/
structure Holding (pre mid rest : Text) (st : HostState W) : Prop where
  listf : st.listf = .between (pre ++ flagChar (st.record.done || st.record.downloaded) :: mid) rest
  partdone : st.partdone = (st.record.skipped || st.record.downloaded)
  skipped : st.record.skipped = true → st.record.downloaded = false
  done : st.record.done = true → st.record.skipped = true

/-- What a loop does to the record: the tries are counted, and a download is noted. -/
structure Record.Goes (r r' : Record) : Prop where
  done : r'.done = r.done
  skipped : r'.skipped = r.skipped
  group : r'.group = r.group
  outfile : r'.outfile = r.outfile
  attempts : r.attempts ≤ r'.attempts

theorem Record.Goes.refl (r : Record) : r.Goes r := ⟨rfl, rfl, rfl, rfl, le_rfl⟩

theorem Record.Goes.trans {r₁ r₂ r₃ : Record} (h : r₁.Goes r₂) (h' : r₂.Goes r₃) : r₁.Goes r₃ :=
  ⟨h'.done.trans h.done, h'.skipped.trans h.skipped, h'.group.trans h.group, h'.outfile.trans h.outfile,
    h.attempts.trans h'.attempts⟩

/-- The flag of the record becomes `1`, and the stream is where it was. -/
theorem setFlag_between {done : Bool} : setFlag pre.length (.between (pre ++ flagChar done :: mid) rest) =
    .between (pre ++ flagChar true :: mid) rest := Stdio.fputc_between

/-- The tries of a host end with the flag as it should be, and only an `ApplicationExFatal` exits. -/
theorem tryHost_spec {host : Host} : ∀ (tries : Nat) (st : HostState W), Holding pre mid rest st → st.partdone = false →
    tryHost out pre.length host tries st = (left, st') →
      left ≠ .noline ∧ (left = .exit → Exits out) ∧ Holding pre mid rest st' ∧ st.record.Goes st'.record ∧
        st'.record.hosts = st.record.hosts ∧ (0 < tries → st.record.attempts < st'.record.attempts)
  | 0, st, hst, _, h => by
    obtain ⟨rfl, rfl⟩ := Prod.mk.inj h
    exact ⟨by simp, by simp, hst, .refl _, rfl, by simp⟩
  | tries + 1, st, hst, hpart, h => by
    have hfresh : st.record.skipped = false ∧ st.record.downloaded = false := by
      have := hst.partdone
      rw [hpart] at this
      exact Bool.or_eq_false_iff.mp this.symm
    have hdone : st.record.done = false := by
      by_contra hd
      have := hst.done (by simpa using hd)
      rw [hfresh.1] at this
      cases this
    have hgoes : st.record.Goes { st.record with attempts := st.record.attempts + 1 } := ⟨rfl, rfl, rfl, rfl, Nat.le_succ _⟩
    rw [tryHost] at h
    cases hdownload : download out st.record.group st.record.outfile host st.world with
    | mk r world =>
      rw [hdownload] at h
      cases r with
      | ok u =>
        obtain ⟨rfl, rfl⟩ := Prod.mk.inj h
        refine ⟨by simp, by simp, ⟨?_, by simp, by simp [hfresh.1], by simp [hdone]⟩,
          ⟨rfl, rfl, rfl, rfl, Nat.le_succ _⟩, rfl, by simp⟩
        have hlistf := hst.listf
        rw [hdone, hfresh.2] at hlistf
        simp [hlistf, hdone, setFlag_between]
      | error e =>
        cases e with
        | applicationFatal =>
          obtain ⟨rfl, rfl⟩ := Prod.mk.inj h
          exact ⟨by simp, fun _ => ⟨_, _, _, _, congrArg Prod.fst hdownload⟩,
            ⟨hst.listf, hst.partdone, hst.skipped, hst.done⟩, hgoes, rfl, by simp⟩
        | fatal =>
          obtain ⟨rfl, rfl⟩ := Prod.mk.inj h
          exact ⟨by simp, by simp, ⟨hst.listf, hst.partdone, hst.skipped, hst.done⟩, hgoes, rfl, by simp⟩
        | error =>
          obtain ⟨hline, hexit, hst', hgoes', hhosts, -⟩ :=
            tryHost_spec tries { st with world, record := { st.record with attempts := st.record.attempts + 1 } }
              ⟨hst.listf, hst.partdone, hst.skipped, hst.done⟩ hpart h
          exact ⟨hline, hexit, hst', hgoes.trans hgoes', hhosts, fun _ => hgoes'.attempts⟩

/-- The hosts that were read are the first of those that are there, and all of them unless the program
    exits. Without a download the hosts are tried one after another. -/
structure HostsRead (out : Outside W) (maxretry : Int32) (pre mid rest : Text) (q : QueuedPart)
    (hs : List (NntpServerArticle × ServerLogin)) (st : HostState W) (left : Left) (st' : HostState W) : Prop where
  ended : left = .next ∨ left = .exit ∧ Exits out
  split : ∃ hs₁ hs₂, hs = hs₁ ++ hs₂ ∧ (left = .next → hs₂ = []) ∧ st'.record.hosts = st.record.hosts ++ hs₁.map q.host ∧
    Holding pre (mid ++ hs₁.flatMap q.hostText) (hs₂.flatMap q.hostText ++ rest) st'
  goes : st.record.Goes st'.record
  idle : st.partdone = true → st'.record.attempts = st.record.attempts ∧ st'.record.downloaded = st.record.downloaded
  tried : st.partdone = false → 0 < maxretry → hs ≠ [] → st.record.attempts < st'.record.attempts

theorem hostLoop_spec (hq : q.Writable) : ∀ (hs : List (NntpServerArticle × ServerLogin)) (mid : Text) (st : HostState W),
    hs ⊆ q.sap → Holding pre mid (hs.flatMap q.hostText ++ rest) st →
      hostLoop out maxretry pre.length hs.length st = (left, st') →
      HostsRead out maxretry pre mid rest q hs st left st'
  | [], mid, st, _, hst, h => by
    obtain ⟨rfl, rfl⟩ := Prod.mk.inj h
    exact ⟨Or.inl rfl, ⟨[], [], rfl, fun _ => rfl, by simp, by simpa using hst⟩, .refl _, fun _ => ⟨rfl, rfl⟩,
      fun _ _ hne => absurd rfl hne⟩
  | x :: hs, mid, st, hsub, hst, h => by
    have hx : x ∈ q.sap := hsub List.mem_cons_self
    have hread : readHost st.listf = (some (q.host x), .between
        (pre ++ flagChar (st.record.done || st.record.downloaded) :: (mid ++ q.hostText x))
          (hs.flatMap q.hostText ++ rest)) := by
      rw [hst.listf, List.flatMap_cons, List.append_assoc, readHost_text hq hx, List.append_assoc, List.cons_append]
    rw [List.length_cons, hostLoop, hread] at h
    dsimp only at h
    obtain ⟨st₁, hst₁⟩ : ∃ st₁ : HostState W, st₁ = { st with
      listf := .between (pre ++ flagChar (st.record.done || st.record.downloaded) :: (mid ++ q.hostText x))
        (hs.flatMap q.hostText ++ rest)
      record := { st.record with hosts := st.record.hosts ++ [q.host x] } } := ⟨_, rfl⟩
    have hrec : st₁.record = { st.record with hosts := st.record.hosts ++ [q.host x] } := by rw [hst₁]
    have hpart₁ : st₁.partdone = st.partdone := by rw [hst₁]
    have hhold : Holding pre (mid ++ q.hostText x) (hs.flatMap q.hostText ++ rest) st₁ := by
      rw [hst₁]
      exact ⟨rfl, hst.partdone, hst.skipped, hst.done⟩
    have hgoes : st.record.Goes st₁.record := by
      rw [hrec]
      exact ⟨rfl, rfl, rfl, rfl, le_rfl⟩
    have hsub' : hs ⊆ q.sap := fun y hy => hsub (List.mem_cons_of_mem x hy)
    by_cases hpart : st.partdone = true
    · rw [if_pos hpart, ← hst₁] at h
      have ih := hostLoop_spec hq hs _ st₁ hsub' hhold h
      obtain ⟨hs₁, hs₂, heq, hnext, hhosts, hheld⟩ := ih.split
      refine ⟨ih.ended, ⟨x :: hs₁, hs₂, by rw [heq, List.cons_append], hnext, ?_, ?_⟩, hgoes.trans ih.goes,
        fun _ => ?_, fun hf => ?_⟩
      · rw [hhosts, hrec]
        simp
      · rw [List.flatMap_cons, ← List.append_assoc]
        exact hheld
      · have := ih.idle (hpart₁.trans hpart)
        rw [hrec] at this
        exact this
      · rw [hpart] at hf
        cases hf
    · have hfalse : st₁.partdone = false := hpart₁.trans (by simpa using hpart)
      rw [if_neg hpart, ← hst₁] at h
      cases htry : tryHost out pre.length (q.host x) maxretry.toInt.toNat st₁ with
      | mk left₁ st₂ =>
        obtain ⟨hline, hexit, hheld, hgoes₂, hhosts₂, hattempts⟩ := tryHost_spec _ _ hhold hfalse htry
        have hmore : 0 < maxretry → st.record.attempts < st₂.record.attempts := fun hpos => by
          have hint : 0 < maxretry.toInt := Int32.lt_iff_toInt_lt.mp hpos
          have := hattempts (by omega)
          rw [hrec] at this
          exact this
        rw [htry] at h
        cases left₁ with
        | noline => exact absurd rfl hline
        | exit =>
          obtain ⟨rfl, rfl⟩ := Prod.mk.inj h
          refine ⟨Or.inr ⟨rfl, hexit rfl⟩, ⟨[x], hs, rfl, by simp, ?_, by simpa using hheld⟩, hgoes.trans hgoes₂,
            fun hf => absurd hf hpart,
            fun _ hpos _ => hmore hpos⟩
          rw [hhosts₂, hrec]
          rfl
        | next =>
          have ih := hostLoop_spec hq hs _ st₂ hsub' hheld h
          obtain ⟨hs₁, hs₂, heq, hnext, hhosts, hheld'⟩ := ih.split
          refine ⟨ih.ended, ⟨x :: hs₁, hs₂, by rw [heq, List.cons_append], hnext, ?_, ?_⟩, (hgoes.trans hgoes₂).trans ih.goes,
            fun hf => absurd hf hpart, fun _ hpos _ => (hmore hpos).trans_le ih.goes.attempts⟩
          · rw [hhosts, hhosts₂, hrec]
            simp
          · rw [List.flatMap_cons, ← List.append_assoc]
            exact hheld'

/-! ### The records -/

/-- A record was read for an entry, and what was done with it. An entry that is done is left alone, as is one
    whose file is there; the others are downloaded from their hosts. -/
structure ReadAs (out : Outside W) (maxretry : Int32) (whole : Prop) (e : Bool × QueuedPart) (r : Record) : Prop where
  done : r.done = e.1
  group : r.group = e.2.group.getD []
  outfile : r.outfile = e.2.fn
  hosts : r.hosts <+: e.2.hosts
  allHosts : whole → r.hosts = e.2.hosts
  doneSkipped : r.done = true → r.skipped = true
  skipped : r.skipped = true → r.done = true ∨ ∃ w, out.fexists r.outfile w = true
  idle : r.skipped = true → r.attempts = 0 ∧ r.downloaded = false
  tried : r.skipped = false → 0 < maxretry → r.hosts ≠ [] → 0 < r.attempts

variable {done : Bool} {w w' : W} {listf : Stdio} {record : Option Record}

/-- Up to its hosts a record is read as what was written. -/
theorem readRecord_head (hq : q.Writable)
    (hst : st = ⟨.between (pre ++ flagChar done :: q.head) (q.sap.flatMap q.hostText ++ rest), w,
      done || out.fexists q.fn w, { done, skipped := done || out.fexists q.fn w, group := q.group.getD [], outfile := q.fn }⟩)
    (hloop : hostLoop out maxretry pre.length (atoi (printUlong (UInt64.ofNat q.sap.length))).toInt.toNat st = (left, st')) :
    readRecord out maxretry pre.length done (.between (pre ++ [flagChar done, '\n']) (q.text.tail ++ rest)) w =
      (left, st'.listf, st'.world, some st'.record) := by
  have hpre : pre ++ [flagChar done, '\n'] ++ (q.group.getD [] ++ ['\n']) ++ (q.fn ++ ['\n']) ++
      (printUlong (UInt64.ofNat q.sap.length) ++ ['\n']) = pre ++ flagChar done :: q.head := by simp [QueuedPart.head]
  unfold readRecord
  simp only [QueuedPart.text, QueuedPart.head, List.tail_cons, List.append_assoc, List.cons_append, List.nil_append]
  rw [bfgets_line hq.group]
  dsimp only
  rw [bfgets_line hq.fn]
  dsimp only
  rw [bfgets_line (printUlong_fits _)]
  dsimp only
  rw [hpre, ← hst, hloop]

/-- A record that is read ends with the flag that it should have. -/
theorem readRecord_spec (hq : q.Writable) (hcount : q.sap.length < 2 ^ 31)
    (h : readRecord out maxretry pre.length done (.between (pre ++ [flagChar done, '\n']) (q.text.tail ++ rest)) w =
      (left, listf, w', record)) :
    ∃ r, record = some r ∧ (left = .next ∨ left = .exit ∧ Exits out) ∧
      ReadAs out maxretry (left = .next) (done, q) r ∧
      listf.bytes = pre ++ (flagChar (done || r.downloaded) :: q.text ++ rest) ∧
      (left = .next → listf = .between (pre ++ flagChar (done || r.downloaded) :: q.text) rest) := by
  have hlen : (UInt64.ofNat q.sap.length).toNat = q.sap.length := by
    rw [UInt64.toNat_ofNat']
    exact Nat.mod_eq_of_lt (hcount.trans (by decide))
  have hatoi : (atoi (printUlong (UInt64.ofNat q.sap.length))).toInt.toNat = q.sap.length := by
    have hscan := @scan_toDigits [] (UInt64.ofNat q.sap.length).toNat (by simp)
    rw [List.append_nil, hlen] at hscan
    unfold atoi strtol printUlong
    rw [hlen, hscan]
    simp only [Bool.false_eq_true, if_false]
    rw [min_eq_right (by omega), Int32.toInt_ofInt_of_le (by omega) (by omega), Int.toNat_natCast]
  obtain ⟨skipped, hskip⟩ : ∃ skipped, skipped = (done || out.fexists q.fn w) := ⟨_, rfl⟩
  obtain ⟨st, hst⟩ : ∃ st : HostState W,
    st = ⟨.between (pre ++ flagChar done :: q.head) (q.sap.flatMap q.hostText ++ rest), w, skipped,
      { done, skipped, group := q.group.getD [], outfile := q.fn }⟩ := ⟨_, rfl⟩
  have hrec : st.record = { done, skipped, group := q.group.getD [], outfile := q.fn } := by rw [hst]
  have hpart : st.partdone = skipped := by rw [hst]
  have hhold : Holding pre q.head (q.sap.flatMap q.hostText ++ rest) st := by
    rw [hst]
    exact ⟨by simp, by simp, fun _ => rfl, fun hd => by rw [hskip, show done = true from hd, Bool.true_or]⟩
  cases hloop : hostLoop out maxretry pre.length q.sap.length st with
  | mk left₁ st' =>
    rw [readRecord_head hq (hskip ▸ hst) (hatoi.symm ▸ hloop)] at h
    obtain ⟨rfl, hlistf, -, hrecord⟩ := by simpa only [Prod.mk.injEq] using h
    have hread := hostLoop_spec hq q.sap q.head st (List.Subset.refl _) hhold hloop
    obtain ⟨hs₁, hs₂, heq, hnext, hhosts, hheld⟩ := hread.split
    have hgoes := hread.goes
    rw [hrec] at hgoes hhosts
    rw [List.nil_append] at hhosts
    have hbetween := hheld.listf
    rw [hgoes.done, hlistf] at hbetween
    refine ⟨st'.record, hrecord.symm, hread.ended, ⟨hgoes.done, hgoes.group, hgoes.outfile, ?_, ?_, ?_, ?_, ?_, ?_⟩, ?_, ?_⟩
    · rw [hhosts, QueuedPart.hosts, heq, List.map_append]
      exact List.prefix_append _ _
    · intro hleft
      rw [hhosts, QueuedPart.hosts, heq, hnext hleft, List.append_nil]
    · intro hd
      rw [hgoes.skipped, hskip, ← show st'.record.done = done from hgoes.done, hd, Bool.true_or]
    · intro hsk
      rw [hgoes.skipped] at hsk
      rw [hgoes.done, hgoes.outfile]
      have hor : (done || out.fexists q.fn w) = true := hskip.symm.trans hsk
      rcases Bool.or_eq_true_iff.mp hor with hd | hf
      · exact Or.inl hd
      · exact Or.inr ⟨w, hf⟩
    · intro hsk
      rw [hgoes.skipped] at hsk
      have := hread.idle (hpart.trans hsk)
      rw [hrec] at this
      exact this
    · intro hsk hpos hne
      rw [hgoes.skipped] at hsk
      have hsap : q.sap ≠ [] := fun hnil => hne (by rw [hhosts, (List.append_eq_nil_iff.mp (heq.symm.trans hnil)).1]; rfl)
      exact Nat.zero_lt_of_lt (hread.tried (hpart.trans hsk) hpos hsap)
    · rw [hbetween, QueuedPart.text, heq]
      simp
    · intro hleft
      rw [hbetween, QueuedPart.text, heq, hnext hleft]
      simp

theorem ReadAs.mono {whole whole' : Prop} {e : Bool × QueuedPart} {r : Record} (h : ReadAs out maxretry whole e r)
    (hw : whole' → whole) : ReadAs out maxretry whole' e r := { h with allHosts := fun hwhole => h.allHosts (hw hwhole) }

/-- The entries with the flags of what was downloaded. -/
def marked : List (Bool × QueuedPart) → List Record → List (Bool × QueuedPart)
  | e :: l, r :: records => (e.1 || r.downloaded, e.2) :: marked l records
  | l, _ => l

/-- A run of `dofile` on the litelist of these entries: it reads them in order, all of them unless it exits,
    and its file is then their litelist with the flags of what it downloaded. -/
structure Reads (out : Outside W) (maxretry : Int32) (l : List (Bool × QueuedPart)) (run : DofileRun W) : Prop where
  ended : run.atEnd = .finished ∨ run.atEnd = .exited ∧ Exits out
  records : ∃ l₁ l₂, l = l₁ ++ l₂ ∧ List.Forall₂ (ReadAs out maxretry (run.atEnd = .finished)) l₁ run.records ∧
    (run.atEnd = .finished → l₂ = [])
  file : run.listf.bytes = litelist (marked l run.records)

theorem flag_fits (done : Bool) : FitsBuffer [flagChar done] := by
  refine ⟨fun c hc => ?_, by simp⟩
  rw [List.mem_singleton.mp hc]
  cases done <;> decide

/-- The loop reads the flag of a record, and then the record. -/
theorem recordLoop_cons {fuel : Nat} {l : List (Bool × QueuedPart)} {r : Record}
    (hrecord : readRecord out maxretry pre.length done (.between (pre ++ [flagChar done, '\n']) (q.text.tail ++ litelist l)) w =
      (left, listf, w', some r)) :
    (left = .next → recordLoop out maxretry (fuel + 1) (.between pre (litelist ((done, q) :: l))) w =
      { recordLoop out maxretry fuel listf w' with records := r :: (recordLoop out maxretry fuel listf w').records }) ∧
    (left = .exit → recordLoop out maxretry (fuel + 1) (.between pre (litelist ((done, q) :: l))) w =
      ⟨[r], .exited, listf, w'⟩) := by
  have hread : bfgets (.between pre (litelist ((done, q) :: l))) =
      (some [flagChar done], .between (pre ++ [flagChar done, '\n']) (q.text.tail ++ litelist l)) := by
    have := @bfgets_line pre (q.text.tail ++ litelist l) [flagChar done] (flag_fits done)
    simpa [litelist, QueuedPart.text, QueuedPart.head] using this
  have hflag : decide (([flagChar done] : Text) = "1".toList) = done := by cases done <;> decide
  have hvalid : ¬(decide (([flagChar done] : Text) ≠ "1".toList) && decide (([flagChar done] : Text) ≠ "0".toList)) = true := by
    cases done <;> decide
  rw [recordLoop, if_neg (by simp), hread]
  dsimp only [Stdio.between_pos]
  rw [if_neg hvalid, hflag, hrecord]
  constructor
  · rintro rfl
    rfl
  · rintro rfl
    rfl

theorem recordLoop_spec : ∀ (l : List (Bool × QueuedPart)) (fuel : Nat) (pre : Text) (w : W), l.length < fuel →
    (∀ e ∈ l, e.2.Writable) → (∀ e ∈ l, e.2.sap.length < 2 ^ 31) →
      let run := recordLoop out maxretry fuel (.between pre (litelist l)) w
      (run.atEnd = .finished ∨ run.atEnd = .exited ∧ Exits out) ∧
        (∃ l₁ l₂, l = l₁ ++ l₂ ∧ List.Forall₂ (ReadAs out maxretry (run.atEnd = .finished)) l₁ run.records ∧
          (run.atEnd = .finished → l₂ = [])) ∧
        run.listf.bytes = pre ++ litelist (marked l run.records)
  | [], fuel, pre, w, hfuel, _, _ => by
    obtain ⟨fuel, rfl⟩ := Nat.exists_eq_add_of_lt hfuel
    have hrun : recordLoop out maxretry (fuel + 1) (.between pre (litelist [])) w =
      ⟨[], .finished, { Stdio.between pre [] with eof := true }, w⟩ := by
      rw [recordLoop, if_neg (by simp), show litelist [] = [] from rfl, bfgets_end]
    rw [List.length_nil, Nat.zero_add, hrun]
    exact ⟨Or.inl rfl, ⟨[], [], rfl, .nil, fun _ => rfl⟩, rfl⟩
  | (done, q) :: l, fuel, pre, w, hfuel, hwrite, hcount => by
    obtain ⟨fuel, rfl⟩ := Nat.exists_eq_add_of_lt (Nat.zero_lt_of_lt hfuel)
    rw [Nat.zero_add] at hfuel ⊢
    cases hrecord : readRecord out maxretry pre.length done (.between (pre ++ [flagChar done, '\n'])
      (q.text.tail ++ litelist l)) w with
    | mk left rest =>
      obtain ⟨listf, w', record⟩ := rest
      obtain ⟨r, rfl, hended, hr, hbytes, hnext⟩ :=
        readRecord_spec (hwrite _ List.mem_cons_self) (hcount _ List.mem_cons_self) hrecord
      rcases hended with rfl | ⟨rfl, hexits⟩
      · rw [(recordLoop_cons hrecord).1 rfl]
        obtain ⟨hended, ⟨l₁, l₂, heq, hall, hl₂⟩, hfile⟩ :=
          recordLoop_spec l fuel (pre ++ flagChar (done || r.downloaded) :: q.text) w'
          (Nat.lt_of_succ_lt_succ hfuel) (fun e he => hwrite e (List.mem_cons_of_mem _ he))
            (fun e he => hcount e (List.mem_cons_of_mem _ he))
        rw [← hnext rfl] at hended hall hl₂ hfile
        refine ⟨hended, ⟨(done, q) :: l₁, l₂, by rw [heq, List.cons_append], .cons (hr.mono fun _ => rfl) hall, hl₂⟩, ?_⟩
        refine hfile.trans ?_
        simp [marked, litelist]
      · rw [(recordLoop_cons hrecord).2 rfl]
        refine ⟨Or.inr ⟨rfl, hexits⟩, ⟨[(done, q)], l, rfl, .cons (hr.mono (by simp)) .nil, by simp⟩, ?_⟩
        refine hbytes.trans ?_
        simp [marked, litelist]

theorem length_litelist : ∀ l : List (Bool × QueuedPart), l.length ≤ (litelist l).length
  | [] => le_rfl
  | e :: l => by
    have := length_litelist l
    simp only [litelist, List.flatMap_cons, List.length_append, List.length_cons] at this ⊢
    omega

theorem dofile_litelist {l : List (Bool × QueuedPart)} (hwrite : ∀ e ∈ l, e.2.Writable)
    (hcount : ∀ e ∈ l, e.2.sap.length < 2 ^ 31) :
    Reads out maxretry l (dofile out maxretry (litelist l) w) := by
  obtain ⟨hended, hrecords, hfile⟩ := @recordLoop_spec W out maxretry l ((litelist l).length + 1) [] w
    (Nat.lt_succ_of_le (length_litelist l)) hwrite hcount
  exact ⟨hended, hrecords, hfile⟩

theorem mem_marked : ∀ {l : List (Bool × QueuedPart)} {records : List Record} {e : Bool × QueuedPart}, e ∈ marked l records →
    ∃ e' ∈ l, e.2 = e'.2
  | [], records, e, he => by cases records <;> cases he
  | e' :: l, [], e, he => ⟨e, he, rfl⟩
  | e' :: l, r :: records, e, he => by
    rcases List.mem_cons.mp he with rfl | he
    · exact ⟨e', List.mem_cons_self, rfl⟩
    · obtain ⟨e'', hmem, heq⟩ := mem_marked he
      exact ⟨e'', List.mem_cons_of_mem e' hmem, heq⟩

/-- What was queued is read back, a run changes the flags of what it downloads and nothing else, and the next
    run skips these and comes to the others. -/
theorem queue_is_worked_off {W' : Type} (out : Outside W) (out' : Outside W') (maxretry maxretry' : Int32) (w : W) (w' : W')
    (queue : List QueuedPart) (hwrite : ∀ q ∈ queue, q.Writable) (hcount : ∀ q ∈ queue, q.sap.length < 2 ^ 31) :
    let run := dofile out maxretry (writelite queue) w
    let run' := dofile out' maxretry' run.listf.bytes w'
    Reads out maxretry (queue.map (false, ·)) run ∧ Reads out' maxretry' (marked (queue.map (false, ·)) run.records) run' := by
  intro run run'
  have hw : ∀ e ∈ queue.map (false, ·), e.2.Writable := by simpa using hwrite
  have hc : ∀ e ∈ queue.map (false, ·), e.2.sap.length < 2 ^ 31 := by simpa using hcount
  have hrun : Reads out maxretry (queue.map (false, ·)) run := by
    show Reads out maxretry _ (dofile out maxretry (writelite queue) w)
    rw [writelite_eq]
    exact dofile_litelist hw hc
  refine ⟨hrun, ?_⟩
  show Reads out' maxretry' _ (dofile out' maxretry' run.listf.bytes w')
  rw [hrun.file]
  refine dofile_litelist (fun e he => ?_) (fun e he => ?_)
  · obtain ⟨e', he', heq⟩ := mem_marked he
    exact heq ▸ hw e' he'
  · obtain ⟨e', he', heq⟩ := mem_marked he
    exact heq ▸ hc e' he'

/-! ### Where a run goes no further -/

/-- With a count that is not a positive `int` the lines of the hosts are taken for records. -/
theorem dofile_count (hq : q.Writable) (hne : q.sap ≠ [])
    (hcount : (atoi (printUlong (UInt64.ofNat q.sap.length))).toInt.toNat = 0) :
    (dofile out maxretry (writelite [q]) w).atEnd = .invalid := by
  obtain ⟨x, xs, hx⟩ := List.exists_cons_of_ne_nil hne
  obtain ⟨more, hmore⟩ : ∃ more, q.sap.flatMap q.hostText = x.2.line ++ '\n' :: more := by
    rw [hx, List.flatMap_cons]
    exact ⟨_, by simp only [QueuedPart.hostText, List.append_assoc, List.cons_append]; rfl⟩
  have hlogin := hq.login x (by simp [hx])
  have htab : '\t' ∈ x.2.line := by simp [ServerLogin.line]
  have hflag : (decide (x.2.line ≠ "1".toList) && decide (x.2.line ≠ "0".toList)) = true := by
    have hone : x.2.line ≠ "1".toList := fun h => absurd (h ▸ htab) (by decide)
    have hzero : x.2.line ≠ "0".toList := fun h => absurd (h ▸ htab) (by decide)
    rw [decide_eq_true hone, decide_eq_true hzero]
    rfl
  obtain ⟨st, hst⟩ : ∃ st : HostState W, st = ⟨.between ([] ++ flagChar false :: q.head) (q.sap.flatMap q.hostText ++ []), w,
      false || out.fexists q.fn w,
        { done := false, skipped := false || out.fexists q.fn w, group := q.group.getD [], outfile := q.fn }⟩ :=
    ⟨_, rfl⟩
  have hloop : hostLoop out maxretry 0 (atoi (printUlong (UInt64.ofNat q.sap.length))).toInt.toNat st = (.next, st) := by
    rw [hcount, hostLoop]
  have hrecord := readRecord_head hq hst hloop
  obtain ⟨fuel, hfuel⟩ : ∃ fuel, (writelite [q]).length = fuel + 1 :=
    Nat.exists_eq_succ_of_ne_zero (by simp [writelite_eq, litelist])
  have hbetween : st.listf = .between ([] ++ flagChar false :: q.head) (x.2.line ++ '\n' :: more) := by
    rw [hst, hmore, List.append_nil]
  rw [dofile, hfuel, writelite_eq]
  show (recordLoop out maxretry (fuel + 1 + 1) (.between [] (litelist [(false, q)])) w).atEnd = .invalid
  rw [(recordLoop_cons (l := []) hrecord).1 rfl, hbetween, recordLoop, if_neg (by simp), bfgets_line hlogin]
  dsimp only
  rw [if_pos hflag]

end

/-- A part that so many servers have. -/
def partOf (servers : Nat) : QueuedPart where
  group := some "g".toList
  part := ⟨1, [], 0, "m".toList⟩
  sap := List.replicate servers (⟨1, "g".toList, 5, 60, 7⟩, ⟨"h".toList, "u".toList, "p".toList⟩)
  fn := "f".toList

theorem partOf_writable (servers : Nat) : (partOf servers).Writable := by
  refine ⟨?_, ?_, fun h hh => ?_, fun h hh => ?_, fun h hh => ?_, fun h => ?_⟩
  · show FitsBuffer "g".toList
    decide
  · show FitsBuffer "f".toList
    decide
  · rw [List.eq_of_mem_replicate hh]
    decide
  · rw [List.eq_of_mem_replicate hh]
    decide
  · rw [List.eq_of_mem_replicate hh]
    decide
  · cases h

/-- Each connection fails in this way. -/
def failing (e : Ex) : Outside Unit where
  fexists _ _ := false
  doopen _ _ _ _ := (.error e, ())
  dogroup _ _ := (.ok (), ())
  doarticle _ _ _ _ _ := (.ok (), ())

/-- The second run exits at the first of two records that are not done, and the other is not reached. A
    part that `INT_MAX + 1` servers have is not read back at all. -/
theorem records_not_reached :
    (let queue := [partOf 1, partOf 1]
    let run := dofile (failing .error) 1 (writelite queue) ()
    let run' := dofile (failing .applicationFatal) 1 run.listf.bytes ()
    (∀ q ∈ queue, q.Writable) ∧ run.atEnd = .finished ∧ run.listf.bytes = writelite queue ∧
      run'.atEnd = .exited ∧ run'.records.length = 1) ∧
    (partOf (2 ^ 31)).Writable ∧ (dofile (failing .error) 1 (writelite [partOf (2 ^ 31)]) ()).atEnd = .invalid := by
  refine ⟨⟨?_, ?_⟩, partOf_writable _, ?_⟩
  · intro q hq
    rcases List.mem_cons.mp hq with rfl | hq
    · exact partOf_writable 1
    · rw [List.mem_singleton.mp hq]
      exact partOf_writable 1
  · decide +kernel
  · refine dofile_count (partOf_writable _) ?_ ?_
    · exact fun h => absurd (List.replicate_eq_nil_iff _ |>.mp h) (by decide)
    · rw [partOf, List.length_replicate]
      decide +kernel

theorem queue_is_worked_off_two :
    let out : Outside Unit := { failing .error with doopen := fun _ _ _ _ => (.ok (), ()) }
    let queue := [partOf 1, partOf 2]
    let run := dofile (failing .error) 20 (writelite queue) ()
    let run' := dofile out 20 run.listf.bytes ()
    Reads (failing .error) 20 (queue.map (false, ·)) run ∧ Reads out 20 (marked (queue.map (false, ·)) run.records) run' :=
  queue_is_worked_off (failing .error) { failing .error with doopen := fun _ _ _ _ => (.ok (), ()) } 20 20 () ()
    [partOf 1, partOf 2]
    (fun q hq => by
      rcases List.mem_cons.mp hq with rfl | hq
      · exact partOf_writable 1
      · rw [List.mem_singleton.mp hq]
        exact partOf_writable 2)
    (fun q hq => by
      rcases List.mem_cons.mp hq with rfl | hq
      · decide
      · rw [List.mem_singleton.mp hq]
        decide)

end Lite
end Nget
