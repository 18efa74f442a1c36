import Nget.Theorems.Par2Load

/-! What `FinishPacket` writes is what `LoadPacketsFromFile` reads: a file of finished packets is loaded packet by packet, each as
    if it stood alone. -/

namespace Nget.Par2

/-! ### Fields of what is written -/

section
variable {buffer data : List UInt8} {position : Nat}

theorem field_poke_before (h : position ≤ buffer.length) {offset length : Nat} (hle : offset + length ≤ position) :
    field offset length (poke buffer position data) = field offset length buffer := by
  rw [← field_take (poke buffer position data) (Nat.le_refl (offset + length)), take_poke_of_le h hle,
    field_take _ (Nat.le_refl _)]

theorem field_poke (h : position ≤ buffer.length) : field position data.length (poke buffer position data) = data := by
  rw [← field_take (poke buffer position data) (Nat.le_refl (position + data.length)), take_poke h]
  unfold field
  rw [List.drop_left' (List.length_take_of_le h), List.take_length]

theorem drop_poke (h : position ≤ buffer.length) {n : Nat} (hn : position + data.length ≤ n) :
    (poke buffer position data).drop n = buffer.drop n := by
  have hlength : (buffer.take position ++ data).length = position + data.length := by
    rw [List.length_append, List.length_take_of_le h]
  unfold poke
  rw [List.drop_append, List.drop_of_length_le (hlength.trans_le hn), List.nil_append, hlength, List.drop_drop,
    Nat.add_sub_cancel' hn]

end

theorem length_md5Of (data : List UInt8) : (md5Of data).length = 16 := rfl

/-- A packet whose header lacks nothing but what `FinishPacket` stores. -/
structure Finishable (packetdata : List UInt8) : Prop where
  magic : field 0 8 packetdata = packetMagic
  length : littleEndian (field 8 8 packetdata) = packetdata.length
  size : PacketHeader.size ≤ packetdata.length
  aligned : packetdata.length % 4 = 0

section
variable {setid packetdata : List UInt8}

theorem finishPacket_eq (setid packetdata : List UInt8) : finishPacket setid packetdata =
    poke (poke packetdata 32 setid) 16 (md5Of ((poke packetdata 32 setid).drop 32)) := by
  unfold finishPacket
  dsimp only
  rw [MD5Context.new_eq, MD5Context.of_update, MD5Context.of_final, List.nil_append]

/-- A finished packet stands alone. -/
theorem intact_finishPacket (hsetid : setid.length = 16) (h : Finishable packetdata) :
    Intact (finishPacket setid packetdata) 0 ∧
      (headerAt (finishPacket setid packetdata) 0).length = (finishPacket setid packetdata).length := by
  have hsize : 64 ≤ packetdata.length := h.size
  have hset : 32 + setid.length ≤ packetdata.length := by omega
  have hstored := length_poke hset
  have hroom : 16 + (md5Of ((poke packetdata 32 setid).drop 32)).length ≤ (poke packetdata 32 setid).length := by
    rw [length_md5Of]
    omega
  have hplace : 16 ≤ (poke packetdata 32 setid).length := by omega
  have hlength := (length_poke hroom).trans hstored
  have hdrop := @drop_poke (poke packetdata 32 setid) (md5Of ((poke packetdata 32 setid).drop 32)) 16 hplace 32 (Nat.le_refl _)
  have hhash := @field_poke (poke packetdata 32 setid) (md5Of ((poke packetdata 32 setid).drop 32)) 16 hplace
  -- What stands before the hash and the set is left as it was.
  have hbefore : ∀ offset length, offset + length ≤ 16 → field offset length (finishPacket setid packetdata) =
      field offset length packetdata := by
    intro offset length hle
    rw [finishPacket_eq, field_poke_before hplace hle, field_poke_before (by omega) (by omega)]
  rw [← finishPacket_eq] at hlength hdrop hhash
  have hlen : (headerAt (finishPacket setid packetdata) 0).length = packetdata.length :=
    (congrArg littleEndian (hbefore 8 8 (by decide))).trans h.length
  rw [hlength]
  refine ⟨⟨(hbefore 0 8 (by decide)).trans h.magic, hlen ▸ h.size, hlen ▸ h.aligned, ?_, ?_⟩, hlen⟩
  · rw [hlen, hlength, Nat.zero_add]
  · rw [hlen]
    have hrest : field (0 + 32) (packetdata.length - 32) (finishPacket setid packetdata) =
        (poke packetdata 32 setid).drop 32 := by
      rw [← hdrop]
      exact List.take_of_length_le (by rw [List.length_drop, hlength])
    rw [hrest]
    exact hhash.symm

end

/-! ### A packet in a file -/

section
variable {pre packet post : List UInt8}

theorem headerAt_append (h : PacketHeader.size ≤ packet.length) :
    headerAt (pre ++ packet ++ post) pre.length = headerAt packet 0 := by
  unfold headerAt
  rw [List.append_assoc, List.drop_left, List.drop_zero, ← PacketHeader.ofBytes_take (packet ++ post) h, List.take_left]

theorem field_append {offset length : Nat} (h : offset + length ≤ packet.length) :
    field (pre.length + offset) length (pre ++ packet ++ post) = field offset length packet := by
  rw [← field_drop, List.append_assoc, List.drop_left, ← field_take (packet ++ post) h, List.take_left]

/-- Where a packet stands in a file, it is as intact as it is alone. -/
theorem Intact.append (h : Intact packet 0) : Intact (pre ++ packet ++ post) pre.length := by
  have hroom : 0 + PacketHeader.size ≤ packet.length := h.lt
  rw [Nat.zero_add] at hroom
  have hinside := h.inside
  have hsize : 64 ≤ (headerAt packet 0).length := h.size
  have hheader : headerAt (pre ++ packet ++ post) pre.length = headerAt packet 0 := headerAt_append hroom
  refine ⟨hheader ▸ h.magic, hheader ▸ h.size, hheader ▸ h.aligned, ?_, ?_⟩
  · rw [hheader, List.length_append, List.length_append]
    omega
  · rw [hheader, field_append (by omega), ← h.hash, Nat.zero_add]

end

/-- What is done with a packet depends on what is read of it only. -/
theorem usePacket_congr {d e : DiskFile} {p q : Nat} {header : PacketHeader} (hbody : readBody d p header = readBody e q header)
    (hexponent : 68 < header.length → d.read (p + PacketHeader.size) 4 = e.read (q + PacketHeader.size) 4) (s : Loader) :
    s.usePacket d p header = s.usePacket e q header := by
  have hmain : MainPacket.load d p header = MainPacket.load e q header := by
    unfold MainPacket.load
    rw [hbody]
  have hdescription : DescriptionPacket.load d p header = DescriptionPacket.load e q header := by
    unfold DescriptionPacket.load
    rw [hbody]
  have hverification : VerificationPacket.load d p header = VerificationPacket.load e q header := by
    unfold VerificationPacket.load
    rw [hbody]
  have hrecovery : loadRecovery d p header = loadRecovery e q header := by
    unfold loadRecovery
    split
    · rfl
    · rename_i hlarge
      rw [hexponent (Nat.lt_of_not_le hlarge)]
  have hcreator : loadCreator d p header = loadCreator e q header := by
    unfold loadCreator
    rw [hbody]
  unfold Loader.usePacket Loader.loadRecoveryPacket Loader.loadVerificationPacket Loader.loadDescriptionPacket
    Loader.loadMainPacket Loader.loadCreatorPacket
  rw [hmain, hdescription, hverification, hrecovery, hcreator]

theorem takePacket_append {diskfile : DiskFile} (h : Openable diskfile) {pre packet post : List UInt8}
    (hcontents : diskfile.contents = pre ++ packet ++ post) (hintact : Intact packet 0) (x : Loader × Nat) :
    takePacket diskfile x pre.length = takePacket { object := 0, contents := packet } x 0 := by
  have hroom : 0 + PacketHeader.size ≤ packet.length := hintact.lt
  have hinside := hintact.inside
  have hleast : 64 ≤ (headerAt packet 0).length := hintact.size
  have hfile : diskfile.fileSize = pre.length + packet.length + post.length := by
    unfold DiskFile.fileSize
    rw [hcontents, List.length_append, List.length_append]
  have hheader : headerAt diskfile.contents pre.length = headerAt packet 0 := by
    rw [hcontents]
    exact headerAt_append (by omega)
  have halone : ∀ offset length, ({ object := 0, contents := packet } : DiskFile).read offset length =
      some (field offset length packet) := fun _ _ => rfl
  have hread : ∀ offset length, offset + length ≤ packet.length →
      diskfile.read (pre.length + offset) length = some (field offset length packet) := by
    intro offset length hle
    rw [h.read (by omega), hcontents, field_append hle]
  have hused : ∀ s : Loader, s.usePacket diskfile pre.length (headerAt packet 0) =
      s.usePacket { object := 0, contents := packet } 0 (headerAt packet 0) := by
    refine fun s => usePacket_congr ?_ (fun hlarge => ?_) s
    · unfold readBody
      rw [hread _ _ (by unfold PacketHeader.size; omega), halone, Nat.zero_add]
    · rw [hread _ _ (by unfold PacketHeader.size; omega), halone, Nat.zero_add]
  unfold takePacket
  dsimp only
  rw [hheader, hused]

/-! ### The file -/

section
variable {diskfile : DiskFile} {setid : List UInt8}

theorem loadLoop_finished (h : Openable diskfile) {buffersize : Nat} (hbuffer : 0 < diskfile.fileSize → 0 < buffersize)
    (hsetid : setid.length = 16) (packets : List (List UInt8)) (hpackets : ∀ packetdata ∈ packets, Finishable packetdata)
    (pre : List UInt8)
    (hcontents : diskfile.contents = pre ++ (packets.map (finishPacket setid)).flatten) (turns : Nat)
    (hturns : packets.length < turns) (x : Loader × Nat) :
    loadLoop diskfile buffersize turns pre.length x = some (packets.foldl (fun x packetdata =>
      takePacket { object := 0, contents := finishPacket setid packetdata } x 0) x) := by
  induction packets generalizing pre turns x with
  | nil =>
    obtain ⟨turns, rfl⟩ := Nat.exists_eq_succ_of_ne_zero (Nat.ne_of_gt hturns)
    obtain ⟨s, n⟩ := x
    have hend : ¬pre.length + PacketHeader.size ≤ diskfile.fileSize := by
      unfold DiskFile.fileSize PacketHeader.size
      rw [hcontents, List.map_nil, List.flatten_nil, List.append_nil]
      omega
    rw [loadLoop, if_neg hend]
    rfl
  | cons packetdata packets ih =>
    obtain ⟨turns, rfl⟩ := Nat.exists_eq_succ_of_ne_zero (Nat.ne_zero_of_lt hturns)
    rw [List.map_cons, List.flatten_cons, ← List.append_assoc] at hcontents
    obtain ⟨halone, hlength⟩ := intact_finishPacket hsetid (hpackets packetdata List.mem_cons_self)
    have hintact : Intact diskfile.contents pre.length := hcontents ▸ halone.append
    have hheader : headerAt diskfile.contents pre.length = headerAt (finishPacket setid packetdata) 0 := by
      have hroom : 0 + PacketHeader.size ≤ (finishPacket setid packetdata).length := halone.lt
      rw [hcontents]
      exact headerAt_append (by omega)
    have hin : pre.length + PacketHeader.size ≤ diskfile.fileSize := hintact.lt
    have hpos : 0 < diskfile.fileSize := Nat.lt_of_lt_of_le (by decide) (Nat.le_trans (Nat.le_add_left _ _) hin)
    have hstop : pre.length + (headerAt diskfile.contents pre.length).length = (pre ++ finishPacket setid packetdata).length := by
      rw [List.length_append, ← hlength, hheader]
    rw [loadLoop_take h (hbuffer hpos) hin (nextHeader_of_magic h hin hintact.magic) hintact, hstop, List.foldl_cons,
      ← takePacket_append h hcontents halone]
    exact ih (fun other hother => hpackets other (List.mem_cons_of_mem _ hother)) _ hcontents _
      (Nat.lt_of_succ_lt_succ hturns) _

theorem finished_packets_read_back (h : Openable diskfile) (hsetid : setid.length = 16) {packets : List (List UInt8)}
    (hpackets : ∀ packetdata ∈ packets, Finishable packetdata)
    (hcontents : diskfile.contents = (packets.map (finishPacket setid)).flatten) {turns : Nat}
    (hturns : packets.length < turns) (x : Loader × Nat) :
    loadLoop diskfile (min 1048576 diskfile.fileSize) turns 0 x = some (packets.foldl (fun x packetdata =>
      takePacket { object := 0, contents := finishPacket setid packetdata } x 0) x) :=
  loadLoop_finished h (fun hpos => Nat.lt_min.mpr ⟨by decide, hpos⟩) hsetid packets hpackets [] hcontents turns hturns x

end

theorem sampleCreator_finishable : Finishable sampleCreator := ⟨rfl, rfl, by decide, rfl⟩

theorem finished_packets_read_back_sample : ∃ r, loadLoop
    { object := 0, contents := ([sampleCreator, sampleCreator].map (finishPacket sampleSetid)).flatten }
    (min 1048576 136) 3 0 ({}, 0) = some r := by
  have hsize : ([sampleCreator, sampleCreator].map (finishPacket sampleSetid)).flatten.length = 136 := by decide +kernel
  have hopen : Openable
      { object := 0, contents := ([sampleCreator, sampleCreator].map (finishPacket sampleSetid)).flatten } :=
    ⟨hsize.trans_le (by decide), fun _ _ _ => rfl⟩
  have hpackets : ∀ packetdata ∈ [sampleCreator, sampleCreator], Finishable packetdata := by
    intro packetdata hpacketdata
    rcases List.mem_cons.mp hpacketdata with rfl | hpacketdata
    · exact sampleCreator_finishable
    · obtain rfl := List.mem_singleton.mp hpacketdata
      exact sampleCreator_finishable
  have hread := finished_packets_read_back hopen rfl hpackets rfl (by decide : 2 < 3) ({}, 0)
  rw [DiskFile.fileSize, hsize] at hread
  exact ⟨_, hread⟩

end Nget.Par2
