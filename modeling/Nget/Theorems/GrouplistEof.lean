import Nget.Theorems.GrouplistLoad

/-! The end of a group list's file. Where the reader is between two lines is a `GroupPos`, with what decides whether
    it throws when no line is left: whether the group that it reads has a configured server so far, and whether the
    group that it read last was dropped. It throws after a dropped group as it does inside of a group that came to
    nothing, and not inside of one that has a server (`start_eof`). -/

namespace Nget
open CString

/-- The two fields of a line, when the tabs of the second one do not separate. -/
def toksTabs (line : Text) : Option (List Text) :=
  if (btoks '\t' 2 false line).1 = 2 then some (btoks '\t' 2 false line).2.1 else none

theorem btoksLoop_firstLine {tok : Char} {max : Nat} {tokfinal : Bool} (htok : tok ≠ '\n') : ∀ (f : Text) (num : Nat),
    btoksLoop tok max tokfinal num f =
      ((btoksLoop tok max tokfinal num (firstLine f)).1, (btoksLoop tok max tokfinal num (firstLine f)).2.1, afterLine f)
  | [], _ => rfl
  | c :: f, num => by
    by_cases hc : c = '\n'
    · have hne : ('\n' : Char) ≠ tok := htok.symm
      rw [hc, firstLine_newline, afterLine_newline]
      simp [btoksLoop, hne]
    · rw [firstLine_cons hc, afterLine_cons hc]
      unfold btoksLoop
      rw [btoksLoop_firstLine htok f (num + 1), btoksLoop_firstLine htok f num]
      dsimp only
      split
      · rfl
      · split
        · rfl
        · split
          · rfl
          · have hother : ¬(decide (c ≠ tok) && decide (c = '\n')) = true := by simp [hc]
            rw [if_neg hother, if_neg hother]

theorem btoks_firstLine {max : Nat} {tokfinal : Bool} {f : Text} : btoks '\t' max tokfinal f =
    ((btoks '\t' max tokfinal (firstLine f)).1, (btoks '\t' max tokfinal (firstLine f)).2.1, afterLine f) := by
  unfold btoks
  rw [btoksLoop_firstLine (by decide) f]

theorem btoks_toksTabs {f : Text} : (btoks '\t' 2 false f).2.2 = afterLine f ∧
    ((btoks '\t' 2 false f).1 = 2 ∧ toksTabs (firstLine f) = some (btoks '\t' 2 false f).2.1 ∨
      (btoks '\t' 2 false f).1 ≠ 2 ∧ toksTabs (firstLine f) = none) := by
  rw [btoks_firstLine]
  refine ⟨rfl, ?_⟩
  unfold toksTabs
  by_cases htwo : (btoks '\t' 2 false (firstLine f)).1 = 2
  · exact Or.inl ⟨htwo, if_pos htwo⟩
  · exact Or.inr ⟨htwo, if_neg htwo⟩

/-- Where the reader is between two lines. -/
inductive GroupPos where
  /-- Between two groups, the first of which was dropped or not. -/
  | file (dropped : Bool)
  /-- In a group that has a configured server so far, or has none. -/
  | group (listed : Bool)
deriving DecidableEq

/-- What the reader does if the file ends here. -/
def GroupPos.throws : GroupPos → Bool
  | .file dropped => dropped
  | .group listed => !listed

section
variable (hasserver : UInt64 → Bool)

def anyServer (cps : List Text) : Bool := cps.any fun cp => hasserver (atoul cp)

def headerListed (t : List Text) : Bool := anyServer hasserver ((split ',' (t.getD 0 [])).takeWhile fun cp => !cp.isEmpty)

def descriptionListed (t : List Text) : Bool := anyServer hasserver (split ',' (t.getD 0 []))

def groupTurn (line : Text) : GroupPos → GroupPos
  | .file dropped =>
    match toks 2 line with
    | some t => .group (headerListed hasserver t)
    | none => .file dropped
  | .group listed =>
    if line.head? = some '.' then .file !listed
    else
      match toksTabs line with
      | some t => .group (listed || descriptionListed hasserver t)
      | none => .group listed

def groupRun : GroupPos → List Text → GroupPos
  | pos, [] => pos
  | pos, line :: lines => groupRun (groupTurn hasserver line pos) lines

end

theorem groupRun_append {hasserver : UInt64 → Bool} : ∀ (xs ys : List Text) (pos : GroupPos),
    groupRun hasserver pos (xs ++ ys) = groupRun hasserver (groupRun hasserver pos xs) ys
  | [], _, _ => rfl
  | x :: xs, ys, pos => groupRun_append xs ys (groupTurn hasserver x pos)

/-! ### Groups that come to nothing -/

namespace GroupAvailability
variable {hasserver : UInt64 → Bool} {g : GroupAvailability} {serverid : UInt64} {desc : Text}

/-- What keeps a group that is read. -/
def nonempty (g : GroupAvailability) : Bool := !g.servergroups.isEmpty || !g.serverids.isEmpty

theorem nonempty_insert : nonempty { g with serverids := g.serverids.insert serverid } = true := by
  have hids : (g.serverids.insert serverid).isEmpty = false := by
    rw [Bool.eq_false_iff]
    intro hempty
    exact SortedSet.isEmpty_iff.mp hempty serverid (SortedSet.mem_insert.mpr (Or.inl rfl))
  unfold nonempty
  rw [hids, Bool.not_false, Bool.or_true]

theorem nonempty_of_mem {e : Text × ServerGroupDescription} (he : e ∈ g.servergroups) : g.nonempty = true := by
  have hsgs : g.servergroups.isEmpty = false := by
    rw [Bool.eq_false_iff]
    intro hempty
    exact SortedMap.isEmpty_iff.mp hempty e he
  unfold nonempty
  rw [hsgs, Bool.not_false, Bool.true_or]

theorem nonempty_addserverdescription : (g.addserverdescription serverid desc).2.nonempty = true := by
  by_cases hsame : (g.findServer serverid).map (·.1) = some (cstr desc)
  · obtain ⟨si, hsi, -⟩ := Option.map_eq_some_iff.mp hsame
    rw [addserverdescription_same hsame]
    exact nonempty_of_mem (findServer_eq_some hsi).1
  · rw [addserverdescription_other hsame]
    exact nonempty_of_mem (Servergroups.mem_insertServer.mpr (Or.inl rfl))

end GroupAvailability

/-! ### The reader -/

namespace GrouplistReader
open GroupAvailability
variable {hasserver : UInt64 → Bool}

theorem readServers_eof : ∀ (cps : List Text) (r : GrouplistReader) (gd : GroupAvailability),
    (readServers hasserver cps r gd).1.f = r.f ∧
      (readServers hasserver cps r gd).2.nonempty = (gd.nonempty || anyServer hasserver cps)
  | [], _, _ => ⟨rfl, (Bool.or_false _).symm⟩
  | cp :: cps, r, gd => by
    unfold readServers
    dsimp only
    rw [anyServer, List.any_cons]
    by_cases hserver : hasserver (atoul cp) = true
    · obtain ⟨hf, hnonempty⟩ := readServers_eof cps r { gd with serverids := gd.serverids.insert (atoul cp) }
      rw [if_pos hserver, hserver]
      refine ⟨hf, hnonempty.trans ?_⟩
      rw [nonempty_insert, Bool.true_or, Bool.true_or, Bool.or_true]
    · obtain ⟨hf, hnonempty⟩ := readServers_eof cps { r with countdeads := r.countdeads + 1 } gd
      rw [if_neg hserver, Bool.not_eq_true _ |>.mp hserver]
      exact ⟨hf, hnonempty⟩

theorem readDescriptionServers_eof {desc : Text} : ∀ (cps : List Text) (r : GrouplistReader) (gd : GroupAvailability),
    (readDescriptionServers hasserver desc cps r gd).1.f = r.f ∧
      (readDescriptionServers hasserver desc cps r gd).2.nonempty = (gd.nonempty || anyServer hasserver cps)
  | [], _, _ => ⟨rfl, (Bool.or_false _).symm⟩
  | cp :: cps, r, gd => by
    unfold readDescriptionServers
    dsimp only
    rw [anyServer, List.any_cons]
    by_cases hserver : hasserver (atoul cp) = true
    · obtain ⟨hf, hnonempty⟩ := readDescriptionServers_eof cps r (gd.addserverdescription (atoul cp) desc).2
      rw [if_pos hserver, hserver]
      refine ⟨hf, hnonempty.trans ?_⟩
      rw [nonempty_addserverdescription, Bool.true_or, Bool.true_or, Bool.or_true]
    · obtain ⟨hf, hnonempty⟩ := readDescriptionServers_eof cps { r with countdeads := r.countdeads + 1 } gd
      rw [if_neg hserver, Bool.not_eq_true _ |>.mp hserver]
      exact ⟨hf, hnonempty⟩

theorem endLine_f {r : GrouplistReader} : r.endLine.f = afterLine r.f := by
  unfold endLine
  rw [bgetsp_eq]
  dsimp only
  split <;> rfl

/-- The lines of a group, up to its dot or to the end of the file. -/
theorem readDescriptions_eof : ∀ (fuel : Nat) (r : GrouplistReader) (gd : GroupAvailability), r.f.length ≤ fuel →
    ∃ r' gd', readDescriptions hasserver fuel r gd = (r', gd') ∧ r'.f.length ≤ r.f.length ∧
      (groupRun hasserver (.group gd.nonempty) (bufLines r.f)).throws =
        (groupRun hasserver (.file !gd'.nonempty) (bufLines r'.f)).throws
  | fuel, r, gd, hfuel => by
    unfold readDescriptions
    dsimp only
    by_cases hempty : r.f = []
    · rw [hempty]
      exact ⟨r, gd, rfl, Nat.le_of_eq (by rw [hempty]), by rw [hempty]; rfl⟩
    · have hlt := length_afterLine hempty
      rw [if_neg (by simpa using hempty), bufLines_eq hempty, groupRun, groupTurn]
      by_cases hdot : r.f.head? = some '.'
      · rw [if_pos hdot, if_pos (head?_firstLine_eq_dot.mpr hdot)]
        refine ⟨_, gd, rfl, ?_, ?_⟩
        · rw [endLine_f]
          exact hlt.le
        · rw [endLine_f]
      · rw [if_neg hdot, if_neg fun h => hdot (head?_firstLine_eq_dot.mp h)]
        cases fuel with
        | zero => exact absurd hfuel (Nat.not_le_of_gt (Nat.zero_lt_of_lt hlt))
        | succ fuel =>
          obtain ⟨hf, htoks⟩ := @btoks_toksTabs r.f
          have hle : (afterLine r.f).length ≤ fuel := Nat.le_of_lt_succ (lt_of_lt_of_le hlt hfuel)
          dsimp only
          generalize btoks '\t' 2 false r.f = out at *
          rcases htoks with ⟨htwo, htoks⟩ | ⟨hother, htoks⟩
          · rw [if_pos htwo, htoks]
            obtain ⟨hkeep, hnonempty⟩ :=
              @readDescriptionServers_eof hasserver (out.2.1.getD 1 []) (split ',' (out.2.1.getD 0 []))
              { r with curline := r.curline + 1, f := out.2.2 } gd
            generalize readDescriptionServers hasserver (out.2.1.getD 1 []) (split ',' (out.2.1.getD 0 []))
              { r with curline := r.curline + 1, f := out.2.2 } gd = res at *
            have hrest : res.1.f = afterLine r.f := hkeep.trans hf
            obtain ⟨r', gd', hread, hlen, hthrows⟩ := readDescriptions_eof fuel res.1 res.2 (by rw [hrest]; exact hle)
            rw [hrest] at hlen hthrows
            refine ⟨r', gd', hread, hlen.trans hlt.le, ?_⟩
            rw [← hthrows, hnonempty]
            rfl
          · rw [if_neg hother, htoks]
            obtain ⟨r', gd', hread, hlen, hthrows⟩ :=
              readDescriptions_eof fuel { r with curline := r.curline + 1, f := out.2.2, warns := r.warns + 1 } gd
                (by rw [hf]; exact hle)
            rw [hf] at hlen hthrows
            exact ⟨r', gd', hread, hlen.trans hlt.le, hthrows⟩

/-- What a call of `read_group` says of the rest of the file. -/
def GroupEof (hasserver : UInt64 → Bool) (dropped : Bool) (f : Text)
    (out : GrouplistReader × Except Text (Option GroupAvailability)) :
    Prop :=
  match out.2 with
  | .ok (some _) => out.1.f.length < f.length ∧
      (groupRun hasserver (.file dropped) (bufLines f)).throws = (groupRun hasserver (.file false) (bufLines out.1.f)).throws
  | .ok none => (groupRun hasserver (.file dropped) (bufLines f)).throws = false
  | .error e => (groupRun hasserver (.file dropped) (bufLines f)).throws = true ∧ e = out.1.unexpectedEof

theorem GroupEof.shorten {dropped dropped' : Bool} {f f' : Text}
    {out : GrouplistReader × Except Text (Option GroupAvailability)}
    (h : GroupEof hasserver dropped' f' out) (hlen : f'.length ≤ f.length)
    (hrun : (groupRun hasserver (.file dropped) (bufLines f)).throws =
      (groupRun hasserver (.file dropped') (bufLines f')).throws) :
    GroupEof hasserver dropped f out := by
  unfold GroupEof at h ⊢
  rw [hrun]
  rcases out with ⟨r, e | gd⟩
  · exact h
  · cases gd with
    | none => exact h
    | some gd => exact ⟨lt_of_lt_of_le h.1 hlen, h.2⟩

/-- A group, from the servers of its header on. -/
theorem readServers_group {t : List Text} {r : GrouplistReader} {res : GrouplistReader × GroupAvailability}
    (hres : res = readServers hasserver ((split ',' (t.getD 0 [])).takeWhile fun cp => !cp.isEmpty) r ⟨t.getD 1 [], ∅, ∅⟩) :
    ∃ r' gd', readDescriptions hasserver res.1.f.length res.1 res.2 = (r', gd') ∧ r'.f.length ≤ r.f.length ∧
      (groupRun hasserver (.group (headerListed hasserver t)) (bufLines r.f)).throws =
        (groupRun hasserver (.file !gd'.nonempty) (bufLines r'.f)).throws := by
  obtain ⟨hkeep, hnonempty⟩ := @readServers_eof hasserver
    ((split ',' (t.getD 0 [])).takeWhile fun cp => !cp.isEmpty) r ⟨t.getD 1 [], ∅, ∅⟩
  rw [← hres] at hkeep hnonempty
  obtain ⟨r', gd', hread, hlen, hthrows⟩ := @readDescriptions_eof hasserver res.1.f.length res.1 res.2 le_rfl
  rw [hkeep] at hlen
  rw [hkeep, hnonempty] at hthrows
  exact ⟨r', gd', hread, hlen, hthrows⟩

theorem readGroupLoop_eof : ∀ (fuel : Nat) (r : GrouplistReader) (gd : Option GroupAvailability), r.f.length ≤ fuel →
    GroupEof hasserver gd.isSome r.f (readGroupLoop hasserver fuel r gd)
  | fuel, r, gd, hfuel => by
    unfold readGroupLoop
    by_cases hempty : r.f = []
    · rw [if_pos (by simpa using hempty), hempty]
      cases gd with
      | none => exact rfl
      | some gd => exact ⟨rfl, rfl⟩
    · have hlt := length_afterLine hempty
      rw [if_neg (by simpa using hempty)]
      cases fuel with
      | zero => exact absurd hfuel (Nat.not_le_of_gt (Nat.zero_lt_of_lt hlt))
      | succ fuel =>
        obtain ⟨hf, htoks⟩ := @btoks_toks r.f 2 (by decide)
        have hle : (afterLine r.f).length ≤ fuel := Nat.le_of_lt_succ (lt_of_lt_of_le hlt hfuel)
        have hrun : ∀ pos, groupRun hasserver pos (bufLines r.f) =
            groupRun hasserver (groupTurn hasserver (firstLine r.f) pos) (bufLines (afterLine r.f)) := by
          intro pos
          rw [bufLines_eq hempty]
          rfl
        dsimp only
        generalize btoks '\t' 2 true r.f = out at *
        rcases htoks with ⟨htwo, htoks⟩ | ⟨hother, htoks⟩
        · rw [if_pos htwo]
          obtain ⟨r', gd', hread, hlen, hthrows⟩ := @readServers_group hasserver out.2.1
            { r with curline := r.curline + 1, f := out.2.2 } _ rfl
          rw [hf] at hlen hthrows
          rw [hread]
          dsimp only
          rw [show (!gd'.servergroups.isEmpty || !gd'.serverids.isEmpty) = gd'.nonempty from rfl]
          -- the header makes it a group, whatever came before
          have hgroup : (groupRun hasserver (.file gd.isSome) (bufLines r.f)).throws =
              (groupRun hasserver (.file !gd'.nonempty) (bufLines r'.f)).throws := by
            rw [hrun, groupTurn, htoks, ← hthrows]
          by_cases hgd : gd'.nonempty = true
          · rw [if_pos hgd]
            rw [hgd] at hgroup
            exact ⟨lt_of_le_of_lt hlen hlt, hgroup⟩
          · rw [if_neg hgd]
            rw [Bool.not_eq_true _ |>.mp hgd] at hgroup
            exact (readGroupLoop_eof fuel { r' with countdeadg := r'.countdeadg + 1 } (some gd') (hlen.trans hle)).shorten
              (hlen.trans hlt.le) hgroup
        · rw [if_neg hother]
          have hih := readGroupLoop_eof fuel { r with curline := r.curline + 1, f := out.2.2, warns := r.warns + 1 } gd
            (by rw [hf]; exact hle)
          refine hih.shorten (by rw [hf]; exact hlt.le) ?_
          rw [hrun, groupTurn, htoks, hf]

/-- The loop over the groups throws what the end of the file finds. -/
theorem readGroups_eof : ∀ (fuel : Nat) (r : GrouplistReader) (groups : SortedMap Text GroupAvailability), r.f.length ≤ fuel →
    ∃ r', (readGroups hasserver fuel r groups).2.2 =
      if (groupRun hasserver (.file false) (bufLines r.f)).throws then some (unexpectedEof r') else none
  | fuel, r, groups, hfuel => by
    have hgroup := @readGroupLoop_eof hasserver r.f.length r none le_rfl
    unfold readGroups readGroup
    unfold GroupEof at hgroup
    rcases hread : readGroupLoop hasserver r.f.length r none with ⟨r', e | gd⟩
    · rw [hread] at hgroup
      refine ⟨r', ?_⟩
      rw [show (groupRun hasserver (.file false) (bufLines r.f)).throws = true from hgroup.1, if_pos rfl]
      exact congrArg some hgroup.2
    · rw [hread] at hgroup
      cases gd with
      | none =>
        refine ⟨r', ?_⟩
        rw [show (groupRun hasserver (.file false) (bufLines r.f)).throws = false from hgroup, if_neg (by decide)]
      | some gd =>
        obtain ⟨hlt, hrun⟩ := hgroup
        cases fuel with
        | zero => exact absurd hfuel (Nat.not_le_of_gt (Nat.zero_lt_of_lt hlt))
        | succ fuel =>
          obtain ⟨r'', herror⟩ := readGroups_eof fuel r' (groups.insertNew (cstr gd.groupname) gd)
            (Nat.le_of_lt_succ (lt_of_lt_of_le hlt hfuel))
          refine ⟨r'', herror.trans ?_⟩
          rw [show (groupRun hasserver (.file false) (bufLines r.f)).throws = _ from hrun]

/-! ### The servers' infos -/

theorem readServerInfo_eof {line : Text} {rest : List Text} (hdot : line.head? = some '.') :
    ∀ (lines : List Text) (fuel : Nat) (r : GrouplistReader) (serverInfo : SortedMap UInt64 GrouplistServerInfo),
    (∀ l ∈ lines, l.head? ≠ some '.') → r.f.length ≤ fuel → bufLines r.f = lines ++ line :: rest →
    ∃ r', (readServerInfo hasserver fuel r serverInfo).1 = none ∧ (readServerInfo hasserver fuel r serverInfo).2.1 = r' ∧
      bufLines r'.f = rest
  | lines, fuel, r, serverInfo, hlines, hfuel, hf => by
    have hempty : r.f ≠ [] := by
      intro hnil
      rw [hnil] at hf
      cases lines <;> cases hf
    have hlt := length_afterLine hempty
    rw [bufLines_eq hempty] at hf
    unfold readServerInfo
    dsimp only
    rw [if_neg (by simpa using hempty)]
    cases lines with
    | nil =>
      obtain ⟨hfirst, hrest⟩ := List.cons.inj hf
      rw [if_pos (head?_firstLine_eq_dot.mp (hfirst ▸ hdot))]
      refine ⟨_, rfl, rfl, ?_⟩
      rw [endLine_f]
      exact hrest
    | cons l lines =>
      obtain ⟨hfirst, hrest⟩ := List.cons.inj hf
      have hnot : r.f.head? ≠ some '.' := fun h => hlines l List.mem_cons_self (hfirst ▸ head?_firstLine_eq_dot.mpr h)
      rw [if_neg hnot]
      cases fuel with
      | zero => exact absurd hfuel (Nat.not_le_of_gt (Nat.zero_lt_of_lt hlt))
      | succ fuel =>
        have hle : (afterLine r.f).length ≤ fuel := Nat.le_of_lt_succ (lt_of_lt_of_le hlt hfuel)
        obtain ⟨hkeep, -⟩ := @btoks_toks r.f 2 (by decide)
        have hih : ∀ (r' : GrouplistReader) (serverInfo : SortedMap UInt64 GrouplistServerInfo), r'.f = afterLine r.f →
            ∃ r'', (readServerInfo hasserver fuel r' serverInfo).1 = none ∧
              (readServerInfo hasserver fuel r' serverInfo).2.1 = r'' ∧ bufLines r''.f = rest := by
          intro r' serverInfo hr'
          exact readServerInfo_eof hdot lines fuel r' serverInfo (fun l hl => hlines l (List.mem_cons_of_mem _ hl))
            (by rw [hr']; exact hle) (by rw [hr']; exact hrest)
        dsimp only
        split
        · split
          · exact hih _ _ hkeep
          · exact hih _ _ hkeep
        · exact hih _ _ hkeep

end GrouplistReader

namespace Grouplist
open GrouplistReader

/-- What the constructor catches from the reader. -/
def thrown (hasserver : UInt64 → Bool) (f : Text) : Option Text :=
  match start hasserver f with
  | (some e, _, _) => some e
  | (none, r, _) => (readGroups hasserver r.f.length r ∅).2.2

/-- A file that has the servers' section throws what its end finds, and nothing else. -/
theorem thrown_eof {hasserver : UInt64 → Bool} {f : Text} {servers groups : List Text}
    (hservers : ∀ l ∈ servers, l.head? ≠ some '.') (hf : bufLines f = glcacheVersion :: (servers ++ ['.'] :: groups)) :
    ∃ r : GrouplistReader, thrown hasserver f =
      if (groupRun hasserver (.file false) groups).throws then some r.unexpectedEof else none := by
  have hempty : f ≠ [] := by
    rintro rfl
    cases hf
  rw [bufLines_eq hempty] at hf
  obtain ⟨hfirst, hrest⟩ := List.cons.inj hf
  have hversion : bgetsp f = (glcacheVersion, afterLine f) := by
    rw [bgetsp_eq, hfirst]
    rfl
  obtain ⟨r, herror, hr, hlines⟩ := @readServerInfo_eof hasserver ['.'] groups rfl servers (afterLine f).length
    { f := afterLine f, curline := 0 + 1 } ∅ hservers le_rfl hrest
  have hstart : start hasserver f = readServerInfo hasserver (afterLine f).length { f := afterLine f, curline := 0 + 1 } ∅ := by
    unfold start
    dsimp only
    rw [if_neg (by simpa using hempty), hversion]
    exact if_pos rfl
  unfold thrown
  rw [hstart]
  generalize readServerInfo hasserver (afterLine f).length { f := afterLine f, curline := 0 + 1 } ∅ = out at herror hr ⊢
  obtain ⟨e, r', serverInfo⟩ := out
  obtain rfl : e = none := herror
  obtain rfl : r' = r := hr
  rw [← hlines]
  exact readGroups_eof r'.f.length r' ∅ le_rfl

end Grouplist
end Nget
