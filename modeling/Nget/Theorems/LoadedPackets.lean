import Nget.Theorems.Par2Load

/-! What `Process` has loaded, once it has gone through its par2 files: of each kind of packet, and of each file or exponent, the
    first one of the set whose packet was the first of all. -/

namespace Nget.Par2
open Resync

/-! ### Packets and their keys -/

inductive Packet where
  | main (packet : MainPacket)
  | description (fileid : List UInt8) (packet : DescriptionPacket)
  | verification (fileid : List UInt8) (packet : VerificationPacket)
  | recovery (exponent : UInt32) (size : Nat)
  | creator

/-- What no two packets that are kept have in common. -/
inductive PacketKey where
  | main
  | description (fileid : List UInt8)
  | verification (fileid : List UInt8)
  | recovery (exponent : UInt32)
  | creator
deriving DecidableEq

def Packet.key : Packet → PacketKey
  | .main _ => .main
  | .description fileid _ => .description fileid
  | .verification fileid _ => .verification fileid
  | .recovery exponent _ => .recovery exponent
  | .creator => .creator

/-- The packet with a header that stands at an offset, if it can be loaded. -/
def packetOf (diskfile : DiskFile) (offset : Nat) (header : PacketHeader) : Option Packet :=
  if header.type = recoveryblockpacketType then
    (loadRecovery diskfile offset header).map fun packet => .recovery packet.1 packet.2
  else if header.type = fileverificationpacketType then
    (VerificationPacket.load diskfile offset header).map fun packet => .verification packet.1 packet.2
  else if header.type = filedescriptionpacketType then
    (DescriptionPacket.load diskfile offset header).map fun packet => .description packet.1 packet.2
  else if header.type = mainpacketType then (MainPacket.load diskfile offset header).map .main
  else if header.type = creatorpacketType then if loadCreator diskfile offset header then some .creator else none
  else none

/-- The packet that a loader has for a key. -/
def Loader.held (s : Loader) : PacketKey → Option Packet
  | .main => s.mainpacket.map .main
  | .description fileid => (s.sourceFile fileid).1.map (.description fileid)
  | .verification fileid => (s.sourceFile fileid).2.map (.verification fileid)
  | .recovery exponent => (s.recoverypacketmap.find? (·.1 = exponent)).map fun packet => .recovery packet.1 packet.2
  | .creator => if s.creatorpacket then some .creator else none

/-! ### Using a packet -/

section
variable {κ α : Type} [DecidableEq κ] {entries : List (κ × α)} {key other : κ} {value : α}

theorem find?_snoc (hnew : ¬(entries.any fun e => decide (e.1 = key)) = true) :
    ((entries ++ [(key, value)]).find? fun e => decide (e.1 = other)) =
      if other = key then some (key, value) else entries.find? fun e => decide (e.1 = other) := by
  rw [List.find?_append]
  split
  · rename_i hother
    subst hother
    have hnone : (entries.find? fun e => decide (e.1 = other)) = none :=
      List.find?_eq_none.mpr fun e he hkey => hnew (List.any_eq_true.mpr ⟨e, he, hkey⟩)
    rw [hnone, Option.none_or, List.find?_singleton, if_pos (decide_eq_true rfl)]
  · rename_i hother
    have hlast : ([(key, value)].find? fun e => decide (e.1 = other)) = none := by
      rw [List.find?_singleton, if_neg fun h => hother (of_decide_eq_true h).symm]
    rw [hlast, Option.or_none]

theorem find?_replace (hany : (entries.any fun e => decide (e.1 = key)) = true) :
    ((entries.map fun e => if e.1 = key then (key, value) else e).find? fun e => decide (e.1 = other)) =
      if other = key then some (key, value) else entries.find? fun e => decide (e.1 = other) := by
  have hkeys : ((fun e : κ × α => decide (e.1 = other)) ∘ fun e => if e.1 = key then (key, value) else e) =
      fun e => decide (e.1 = other) := by
    funext e
    have hkey : (if e.1 = key then (key, value) else e).1 = e.1 := by
      split
      · rename_i he
        exact he.symm
      · rfl
    exact congrArg (fun k => decide (k = other)) hkey
  rw [List.find?_map, hkeys]
  cases hfind : entries.find? fun e => decide (e.1 = other) with
  | none =>
    rw [Option.map_none, if_neg]
    rintro rfl
    obtain ⟨e, he, hkey⟩ := List.any_eq_true.mp hany
    exact List.find?_eq_none.mp hfind e he hkey
  | some e =>
    have hfound := List.find?_some hfind
    have hkey : e.1 = other := of_decide_eq_true hfound
    rw [Option.map_some, hkey]
    exact apply_ite some _ _ _

end

theorem sourceFile_store (s : Loader) (fileid other : List UInt8)
    (found : Option DescriptionPacket × Option VerificationPacket) :
    (s.store fileid found).sourceFile other = if other = fileid then found else s.sourceFile other := by
  unfold Loader.store Loader.sourceFile
  dsimp only
  split
  · rename_i hany
    rw [find?_replace hany]
    split <;> rfl
  · rename_i hnew
    rw [find?_snoc hnew]
    split <;> rfl

/-- What is left of a packet for a key. -/
def forKey (key : PacketKey) (packet : Option Packet) : Option Packet := packet.filter fun packet => packet.key = key

theorem forKey_some (key : PacketKey) (packet : Packet) :
    forKey key (some packet) = if packet.key = key then some packet else none := by
  unfold forKey
  rw [Option.filter_some]
  simp only [decide_eq_true_eq]

/-- A packet is kept where there was none with its key. -/
theorem held_of_kept {s t : Loader} {packet : Packet} (hold : s.held packet.key = none) (hnew : t.held packet.key = some packet)
    (hother : ∀ key, key ≠ packet.key → t.held key = s.held key) (key : PacketKey) :
    t.held key = (s.held key).or (forKey key (some packet)) := by
  rw [forKey_some]
  by_cases hkey : packet.key = key
  · rw [if_pos hkey, ← hkey, hold, hnew]
    rfl
  · rw [if_neg hkey, Option.or_none]
    exact hother key fun h => hkey h.symm

/-- A packet is dropped where there was one with its key. -/
theorem held_of_dropped {s : Loader} {packet : Packet} (hold : (s.held packet.key).isSome) (key : PacketKey) :
    s.held key = (s.held key).or (forKey key (some packet)) := by
  rw [forKey_some]
  by_cases hkey : packet.key = key
  · rw [← hkey]
    obtain ⟨old, hold⟩ := Option.isSome_iff_exists.mp hold
    rw [hold, Option.some_or]
  · rw [if_neg hkey, Option.or_none]

section
variable (diskfile : DiskFile) (offset : Nat) (header : PacketHeader) (s : Loader) (key : PacketKey)

theorem held_loadRecoveryPacket :
    (s.loadRecoveryPacket diskfile offset header).1.held key = (s.held key).or
      (forKey key ((loadRecovery diskfile offset header).map fun packet => .recovery packet.1 packet.2)) := by
  unfold Loader.loadRecoveryPacket
  cases loadRecovery diskfile offset header with
  | none => exact (Option.or_none).symm
  | some packet =>
    obtain ⟨exponent, size⟩ := packet
    dsimp only [Option.map_some]
    split
    · rename_i hany
      refine held_of_dropped ?_ key
      change ((s.recoverypacketmap.find? fun e => decide (e.1 = exponent)).map _).isSome
      rw [Option.isSome_map, List.find?_isSome]
      exact List.any_eq_true.mp hany
    · rename_i hnew
      refine @held_of_kept _ _ (.recovery exponent size) ?_ ?_ (fun other hother => ?_) key
      · refine congrArg (Option.map _) (List.find?_eq_none.mpr fun e he hexponent => ?_)
        exact hnew (List.any_eq_true.mpr ⟨e, he, hexponent⟩)
      · change ((s.recoverypacketmap ++ [(exponent, size)]).find? fun e => decide (e.1 = exponent)).map _ = _
        rw [find?_snoc hnew, if_pos rfl]
        rfl
      · cases other with
        | recovery other =>
          change ((s.recoverypacketmap ++ [(exponent, size)]).find? fun e => decide (e.1 = other)).map _ = _
          rw [find?_snoc hnew, if_neg fun h => hother (congrArg PacketKey.recovery h)]
          rfl
        | _ => rfl

theorem held_loadDescriptionPacket :
    (s.loadDescriptionPacket diskfile offset header).1.held key = (s.held key).or
      (forKey key ((DescriptionPacket.load diskfile offset header).map fun packet => .description packet.1 packet.2)) := by
  unfold Loader.loadDescriptionPacket
  cases DescriptionPacket.load diskfile offset header with
  | none => exact (Option.or_none).symm
  | some packet =>
    obtain ⟨fileid, packet⟩ := packet
    dsimp only [Option.map_some]
    split
    · rename_i hsource
      refine held_of_dropped ?_ key
      change ((s.sourceFile fileid).1.map _).isSome
      rw [hsource]
      rfl
    · rename_i verificationpacket hsource
      refine @held_of_kept _ _ (.description fileid packet) ?_ ?_ (fun other hother => ?_) key
      · change (s.sourceFile fileid).1.map _ = none
        rw [hsource]
        rfl
      · change ((s.store fileid (some packet, verificationpacket)).sourceFile fileid).1.map _ = _
        rw [sourceFile_store, if_pos rfl]
        rfl
      · cases other with
        | description other =>
          change ((s.store fileid (some packet, verificationpacket)).sourceFile other).1.map _ = _
          rw [sourceFile_store, if_neg fun h => hother (congrArg PacketKey.description h)]
          rfl
        | verification other =>
          change ((s.store fileid (some packet, verificationpacket)).sourceFile other).2.map _ = (s.sourceFile other).2.map _
          rw [sourceFile_store]
          split
          · rename_i hsame
            rw [hsame, hsource]
          · rfl
        | _ => rfl

theorem held_loadVerificationPacket :
    (s.loadVerificationPacket diskfile offset header).1.held key = (s.held key).or
      (forKey key ((VerificationPacket.load diskfile offset header).map fun packet => .verification packet.1 packet.2)) := by
  unfold Loader.loadVerificationPacket
  cases VerificationPacket.load diskfile offset header with
  | none => exact (Option.or_none).symm
  | some packet =>
    obtain ⟨fileid, packet⟩ := packet
    dsimp only [Option.map_some]
    split
    · rename_i hsource
      refine held_of_dropped ?_ key
      change ((s.sourceFile fileid).2.map _).isSome
      rw [hsource]
      rfl
    · rename_i descriptionpacket hsource
      refine @held_of_kept _ _ (.verification fileid packet) ?_ ?_ (fun other hother => ?_) key
      · change (s.sourceFile fileid).2.map _ = none
        rw [hsource]
        rfl
      · change ((s.store fileid (descriptionpacket, some packet)).sourceFile fileid).2.map _ = _
        rw [sourceFile_store, if_pos rfl]
        rfl
      · cases other with
        | verification other =>
          change ((s.store fileid (descriptionpacket, some packet)).sourceFile other).2.map _ = _
          rw [sourceFile_store, if_neg fun h => hother (congrArg PacketKey.verification h)]
          rfl
        | description other =>
          change ((s.store fileid (descriptionpacket, some packet)).sourceFile other).1.map _ = (s.sourceFile other).1.map _
          rw [sourceFile_store]
          split
          · rename_i hsame
            rw [hsame, hsource]
          · rfl
        | _ => rfl

theorem held_loadMainPacket :
    (s.loadMainPacket diskfile offset header).1.held key = (s.held key).or
      (forKey key ((MainPacket.load diskfile offset header).map .main)) := by
  unfold Loader.loadMainPacket
  cases MainPacket.load diskfile offset header with
  | none =>
    rw [ite_self]
    exact (Option.or_none).symm
  | some packet =>
    dsimp only [Option.map_some]
    split
    · rename_i hmain
      refine held_of_dropped ?_ key
      change (s.mainpacket.map _).isSome
      rw [Option.isSome_map]
      exact hmain
    · rename_i hmain
      refine @held_of_kept _ _ (.main packet) ?_ rfl (fun other hother => ?_) key
      · change s.mainpacket.map _ = none
        rw [Option.not_isSome_iff_eq_none.mp hmain]
        rfl
      · cases other with
        | main => exact absurd rfl hother
        | _ => rfl

theorem held_loadCreatorPacket :
    (s.loadCreatorPacket diskfile offset header).1.held key = (s.held key).or
      (forKey key (if loadCreator diskfile offset header then some .creator else none)) := by
  unfold Loader.loadCreatorPacket
  cases loadCreator diskfile offset header with
  | false =>
    rw [if_neg Bool.false_ne_true, if_neg Bool.false_ne_true, ite_self]
    exact (Option.or_none).symm
  | true =>
    rw [if_pos rfl, if_pos rfl]
    split
    · rename_i hcreator
      refine held_of_dropped ?_ key
      change (if s.creatorpacket then some Packet.creator else none).isSome
      rw [if_pos hcreator]
      rfl
    · rename_i hcreator
      refine @held_of_kept _ _ .creator (if_neg hcreator) rfl (fun other hother => ?_) key
      cases other with
      | creator => exact absurd rfl hother
      | _ => rfl

theorem held_withSetid (setid : Option (List UInt8)) : ({ s with setid } : Loader).held key = s.held key := by
  cases key <;> rfl

/-- A packet is kept if it is of the set, and there is none with its key. -/
theorem held_usePacket :
    (s.usePacket diskfile offset header).1.held key =
      if s.setid.or (some header.setid) = some header.setid then
        (s.held key).or (forKey key (packetOf diskfile offset header))
      else s.held key := by
  unfold Loader.usePacket packetOf
  dsimp only
  split
  · split
    · rw [held_loadRecoveryPacket, held_withSetid]
    split
    · rw [held_loadVerificationPacket, held_withSetid]
    split
    · rw [held_loadDescriptionPacket, held_withSetid]
    split
    · rw [held_loadMainPacket, held_withSetid]
    split
    · rw [held_loadCreatorPacket, held_withSetid]
    · exact (held_withSetid s key _).trans (Option.or_none).symm
  · exact held_withSetid s key _

theorem kept_loadRecoveryPacket :
    (s.loadRecoveryPacket diskfile offset header).1.setid = s.setid ∧
      (s.loadRecoveryPacket diskfile offset header).1.diskFileMap = s.diskFileMap := by
  unfold Loader.loadRecoveryPacket
  split
  · exact ⟨rfl, rfl⟩
  · split <;> exact ⟨rfl, rfl⟩

theorem kept_loadDescriptionPacket :
    (s.loadDescriptionPacket diskfile offset header).1.setid = s.setid ∧
      (s.loadDescriptionPacket diskfile offset header).1.diskFileMap = s.diskFileMap := by
  unfold Loader.loadDescriptionPacket
  split
  · exact ⟨rfl, rfl⟩
  · split <;> exact ⟨rfl, rfl⟩

theorem kept_loadVerificationPacket :
    (s.loadVerificationPacket diskfile offset header).1.setid = s.setid ∧
      (s.loadVerificationPacket diskfile offset header).1.diskFileMap = s.diskFileMap := by
  unfold Loader.loadVerificationPacket
  split
  · exact ⟨rfl, rfl⟩
  · split <;> exact ⟨rfl, rfl⟩

theorem kept_loadMainPacket :
    (s.loadMainPacket diskfile offset header).1.setid = s.setid ∧
      (s.loadMainPacket diskfile offset header).1.diskFileMap = s.diskFileMap := by
  unfold Loader.loadMainPacket
  split
  · exact ⟨rfl, rfl⟩
  · split <;> exact ⟨rfl, rfl⟩

theorem kept_loadCreatorPacket :
    (s.loadCreatorPacket diskfile offset header).1.setid = s.setid ∧
      (s.loadCreatorPacket diskfile offset header).1.diskFileMap = s.diskFileMap := by
  unfold Loader.loadCreatorPacket
  split
  · exact ⟨rfl, rfl⟩
  · split <;> exact ⟨rfl, rfl⟩

/-- The first packet of all says which set it is. -/
theorem kept_usePacket :
    (s.usePacket diskfile offset header).1.setid = s.setid.or (some header.setid) ∧
      (s.usePacket diskfile offset header).1.diskFileMap = s.diskFileMap := by
  unfold Loader.usePacket
  dsimp only
  split
  · split
    · exact kept_loadRecoveryPacket _ _ _ _
    split
    · exact kept_loadVerificationPacket _ _ _ _
    split
    · exact kept_loadDescriptionPacket _ _ _ _
    split
    · exact kept_loadMainPacket _ _ _ _
    split
    · exact kept_loadCreatorPacket _ _ _ _
    · exact ⟨rfl, rfl⟩
  · exact ⟨rfl, rfl⟩

end

/-! ### What the files offer -/

/-- The packet that a file offers at an offset, with its set. -/
def offeredAt (diskfile : DiskFile) (offset : Nat) : List UInt8 × Option Packet :=
  ((headerAt diskfile.contents offset).setid, packetOf diskfile offset (headerAt diskfile.contents offset))

/-- The packets of files, one file after the other. -/
def offeredBy (o : Outside) (filenames : List Text) : List (List UInt8 × Option Packet) :=
  filenames.flatMap fun filename =>
    ((o.disk filename).map fun diskfile => (packetsIn diskfile.contents).map (offeredAt diskfile)).getD []

/-- The packets of a set. -/
def ofSet (setid : Option (List UInt8)) (offered : List (List UInt8 × Option Packet)) : List Packet :=
  offered.filterMap fun packet => if setid = some packet.1 then packet.2 else none

theorem ofSet_append (setid : Option (List UInt8)) (xs ys : List (List UInt8 × Option Packet)) :
    ofSet setid (xs ++ ys) = ofSet setid xs ++ ofSet setid ys := List.filterMap_append

theorem find?_ofSet_singleton (setid : Option (List UInt8)) (x : List UInt8 × Option Packet) (key : PacketKey) :
    ((ofSet setid [x]).find? fun packet => packet.key = key) = if setid = some x.1 then forKey key x.2 else none := by
  unfold ofSet
  rw [List.filterMap_cons]
  split
  · rename_i hnone
    split
    · rename_i hset
      rw [if_pos hset] at hnone
      rw [hnone]
      rfl
    · rfl
  · rename_i packet hsome
    split at hsome
    · rename_i hset
      rw [hsome, if_pos hset, forKey_some, List.filterMap_nil, List.find?_singleton]
      simp only [decide_eq_true_eq]
    · cases hsome

/-- A loader has the set of the first packet, and for each key the first packet of the set. -/
structure Summary (offered : List (List UInt8 × Option Packet)) (s : Loader) : Prop where
  setid : s.setid = offered.head?.map (·.1)
  held : ∀ key, s.held key = (ofSet s.setid offered).find? fun packet => packet.key = key

section
variable {offered : List (List UInt8 × Option Packet)} {s : Loader}

theorem Summary.initial : Summary [] {} := ⟨rfl, fun key => by cases key <;> rfl⟩

theorem Summary.use (h : Summary offered s) (diskfile : DiskFile) (offset : Nat) :
    Summary (offered ++ [offeredAt diskfile offset])
      (s.usePacket diskfile offset (headerAt diskfile.contents offset)).1 := by
  obtain ⟨hsetid, -⟩ := kept_usePacket diskfile offset (headerAt diskfile.contents offset) s
  -- A set that is known stays, and where there is none nothing has been offered.
  have hbefore : ofSet (s.setid.or (some (headerAt diskfile.contents offset).setid)) offered = ofSet s.setid offered := by
    cases offered with
    | nil => rfl
    | cons x offered =>
      have hsome : s.setid = some x.1 := h.setid
      rw [hsome, Option.some_or]
  refine ⟨?_, fun key => ?_⟩
  · rw [hsetid, h.setid, List.head?_append, Option.map_or]
    rfl
  · rw [held_usePacket, hsetid, ofSet_append, List.find?_append, hbefore, find?_ofSet_singleton, ← h.held key]
    split
    · rename_i hset
      exact congrArg (s.held key).or (if_pos hset).symm
    · rename_i hset
      exact Option.or_none.symm.trans (congrArg (s.held key).or (if_neg hset).symm)

/-- Packets that were offered before change nothing. -/
theorem Summary.again (h : Summary offered s) {more : List (List UInt8 × Option Packet)} (hmore : ∀ x ∈ more, x ∈ offered) :
    Summary (offered ++ more) s := by
  refine ⟨?_, fun key => ?_⟩
  · cases offered with
    | nil =>
      have hnil : more = [] := List.eq_nil_iff_forall_not_mem.mpr fun x hx => List.not_mem_nil (hmore x hx)
      rw [hnil]
      exact h.setid
    | cons x offered => exact h.setid
  · rw [ofSet_append, List.find?_append, ← h.held key]
    cases hheld : s.held key with
    | some packet => rfl
    | none =>
      rw [Option.none_or]
      refine (List.find?_eq_none.mpr fun packet hpacket => ?_).symm
      obtain ⟨x, hx, hxpacket⟩ := List.mem_filterMap.mp hpacket
      have hnone := List.find?_eq_none.mp ((h.held key).symm.trans hheld)
      exact hnone packet (List.mem_filterMap.mpr ⟨x, hmore x hx, hxpacket⟩)

theorem Summary.withDiskFileMap (h : Summary offered s) (diskFileMap : List Text) :
    Summary offered { s with diskFileMap } := by
  refine ⟨h.setid, fun key => ?_⟩
  have hsame : ({ s with diskFileMap } : Loader).held key = s.held key := by cases key <;> rfl
  exact hsame.trans (h.held key)

theorem Summary.takePackets (h : Summary offered s) (diskfile : DiskFile) (ps : List Nat) (n : Nat) :
    Summary (offered ++ ps.map (offeredAt diskfile)) (ps.foldl (takePacket diskfile) (s, n)).1 ∧
      (ps.foldl (takePacket diskfile) (s, n)).1.diskFileMap = s.diskFileMap := by
  induction ps generalizing offered s n with
  | nil =>
    rw [List.map_nil, List.append_nil]
    exact ⟨h, rfl⟩
  | cons p ps ih =>
    obtain ⟨hsummary, hmap⟩ := ih (h.use diskfile p)
      (if (s.usePacket diskfile p (headerAt diskfile.contents p)).2 then n + 1 else n)
    rw [List.append_assoc] at hsummary
    exact ⟨hsummary, hmap.trans (kept_usePacket _ _ _ _).2⟩

end

/-! ### Files -/

theorem offeredBy_append (o : Outside) (xs ys : List Text) : offeredBy o (xs ++ ys) = offeredBy o xs ++ offeredBy o ys :=
  List.flatMap_append

section
variable {o : Outside} {turns : Nat}

theorem loadPacketsFromFile_summary {done : List Text} {s : Loader} (h : Summary (offeredBy o done) s)
    (hmap : ∀ filename ∈ s.diskFileMap, filename ∈ done) {filename : Text}
    (hload : ∀ diskfile, o.disk filename = some diskfile → Loadable diskfile ∧ diskfile.fileSize < turns) :
    ∃ t, s.loadPacketsFromFile o turns filename = some t ∧ Summary (offeredBy o (done ++ [filename])) t ∧
      ∀ other ∈ t.diskFileMap, other ∈ done ++ [filename] := by
  have hkept : ∀ other ∈ s.diskFileMap, other ∈ done ++ [filename] := fun other hother =>
    List.mem_append_left _ (hmap other hother)
  unfold Loader.loadPacketsFromFile
  rw [offeredBy_append]
  split
  · rename_i hseen
    refine ⟨s, rfl, h.again fun x hx => ?_, hkept⟩
    obtain ⟨other, hother, hin⟩ := List.mem_flatMap.mp hx
    obtain rfl := List.mem_singleton.mp hother
    exact List.mem_flatMap.mpr ⟨other, hmap other hseen, hin⟩
  · have hsingle : offeredBy o [filename] =
        ((o.disk filename).map fun diskfile => (packetsIn diskfile.contents).map (offeredAt diskfile)).getD [] :=
      List.flatMap_singleton ..
    rw [hsingle]
    cases hdisk : o.disk filename with
    | none =>
      refine ⟨s, rfl, ?_, hkept⟩
      rw [Option.map_none, Option.getD_none, List.append_nil]
      exact h
    | some diskfile =>
      obtain ⟨hloadable, hturns⟩ := hload diskfile hdisk
      obtain ⟨hsummary, hsame⟩ := h.takePackets diskfile (packetsIn diskfile.contents) 0
      dsimp only
      rw [loadLoop_packetsIn hloadable hturns, Option.map_some, Option.map_some, Option.getD_some]
      generalize (packetsIn diskfile.contents).foldl (takePacket diskfile) (s, 0) = r at hsummary hsame
      obtain ⟨t, packets⟩ := r
      dsimp only at hsummary hsame ⊢
      split
      · refine ⟨_, rfl, hsummary.withDiskFileMap _, fun other hother => ?_⟩
        rcases List.mem_append.mp hother with hold | hnew
        · exact hkept other (hsame ▸ hold)
        · exact List.mem_append_right _ hnew
      · exact ⟨_, rfl, hsummary, fun other hother => hkept other (hsame ▸ hother)⟩

theorem loadFiles_summary (filenames : List Text) {done : List Text} {s : Loader} (h : Summary (offeredBy o done) s)
    (hmap : ∀ filename ∈ s.diskFileMap, filename ∈ done)
    (hload : ∀ filename ∈ filenames, ∀ diskfile, o.disk filename = some diskfile →
      Loadable diskfile ∧ diskfile.fileSize < turns) :
    ∃ t, filenames.foldlM (Loader.loadPacketsFromFile o turns) s = some t ∧ Summary (offeredBy o (done ++ filenames)) t ∧
      ∀ other ∈ t.diskFileMap, other ∈ done ++ filenames := by
  induction filenames generalizing done s with
  | nil =>
    rw [List.append_nil]
    exact ⟨s, rfl, h, hmap⟩
  | cons filename filenames ih =>
    obtain ⟨u, hu, hsummary, hkept⟩ := loadPacketsFromFile_summary h hmap (hload filename List.mem_cons_self)
    obtain ⟨t, ht, hrest⟩ := ih hsummary hkept fun other hother => hload other (List.mem_cons_of_mem _ hother)
    rw [List.append_assoc] at hrest
    refine ⟨t, ?_, hrest⟩
    rw [List.foldlM_cons, hu]
    exact ht

theorem loaded_packets_are_first {filenames : List Text}
    (hload : ∀ filename ∈ filenames, ∀ diskfile, o.disk filename = some diskfile →
      Loadable diskfile ∧ diskfile.fileSize < turns) :
    ∃ s, filenames.foldlM (Loader.loadPacketsFromFile o turns) {} = some s ∧
      s.setid = (offeredBy o filenames).head?.map (·.1) ∧
      ∀ key, s.held key = (ofSet s.setid (offeredBy o filenames)).find? fun packet => packet.key = key := by
  obtain ⟨s, hs, hsummary, -⟩ := @loadFiles_summary _ _ filenames [] _ Summary.initial (fun _ h => h) hload
  exact ⟨s, hs, hsummary.setid, hsummary.held⟩

end

def sampleFiles : Outside where
  disk filename := if filename = ['p'] then some { object := 0, contents := sampleJunk } else none

theorem loaded_packets_are_first_sample :
    ∃ s, [['q'], ['p'], ['p']].foldlM (Loader.loadPacketsFromFile sampleFiles 71) {} = some s ∧ s.setid = some sampleSetid := by
  obtain ⟨s, hs, hsetid, -⟩ := @loaded_packets_are_first sampleFiles 71 [['q'], ['p'], ['p']]
    fun filename _ diskfile hdisk => by
      obtain ⟨-, hdiskfile⟩ := (Option.ite_none_right_eq_some).mp hdisk
      cases hdiskfile
      exact ⟨sample_loadable, by decide +kernel⟩
  exact ⟨s, hs, hsetid.trans (by decide +kernel)⟩

end Nget.Par2
