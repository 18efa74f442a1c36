import Nget.Par2Verify

/-! What is found in the verification hash table: all entries with a checksum and a hash, in the order in which they were loaded. -/

namespace Nget.Par2

namespace VerificationHashEntry

/-- The entry has the checksum and the hash. -/
def Has (crc : UInt32) (hash : List UInt8) (entry : VerificationHashEntry) : Prop := entry.crc = crc ∧ entry.hash = hash

instance {crc : UInt32} {hash : List UInt8} : DecidablePred (Has crc hash) := fun _ => inferInstanceAs (Decidable (_ ∧ _))

theorem key_eq_iff {crc : UInt32} {hash : List UInt8} {entry : VerificationHashEntry} :
    entry.key = keyOf crc hash ↔ entry.Has crc hash := by
  unfold key keyOf Has
  rw [toLex_inj, Prod.mk.injEq, UInt32.toNat_inj, List.map_inj_right fun _ _ h => UInt8.toNat_inj.mp h, List.reverse_inj]

end VerificationHashEntry

namespace HashTable
variable {table : HashTable} {crc : UInt32} {hash : List UInt8}

/-- There is a bucket for every checksum. -/
def Sized (table : HashTable) : Prop := table.buckets.length = table.hashmask.toNat + 1

theorem Sized.bucket_lt (h : table.Sized) (crc : UInt32) : (crc &&& table.hashmask).toNat < table.buckets.length := by
  rw [h]
  exact Nat.lt_succ_of_le (UInt32.le_iff_toNat_le.mp UInt32.and_le_right)

theorem Sized.insert (h : table.Sized) (entry : VerificationHashEntry) : (table.insert entry).Sized := by
  unfold Sized HashTable.insert
  rw [List.length_modify]
  exact h

theorem sized_setLimit (limit : UInt32) : (setLimit limit).Sized := List.length_replicate

/-- The bucket of a checksum. -/
def bucket (table : HashTable) (crc : UInt32) : SearchTree VerificationHashEntry :=
  table.buckets.getD (crc &&& table.hashmask).toNat .leaf

/-- The two searches come to one by the checksum and the hash. -/
theorem lookup_eq (table : HashTable) (crc : UInt32) (hash : List UInt8) : table.lookup crc hash =
    ((table.bucket crc).search fun e => SearchTree.side (VerificationHashEntry.keyOf crc hash) e.key).chain :=
  congrArg SearchTree.chain (SearchTree.search_search VerificationHashEntry.key Prod.Lex.monotone_fst_ofLex _ _)

theorem lookup_setLimit (limit : UInt32) : (setLimit limit).lookup crc hash = [] := by
  have hbucket : (setLimit limit).bucket crc = .leaf := by
    unfold bucket setLimit
    rw [List.getD_eq_getElem?_getD, List.getElem?_replicate]
    split <;> rfl
  rw [lookup_eq, hbucket]
  rfl

theorem bucket_insert (h : table.Sized) (entry : VerificationHashEntry) : (table.insert entry).bucket crc =
    if entry.crc &&& table.hashmask = crc &&& table.hashmask then
      (table.bucket crc).insert (fun e => SearchTree.side entry.key e.key) entry
    else table.bucket crc := by
  unfold bucket HashTable.insert
  dsimp only
  rw [List.getD_eq_getElem?_getD, List.getElem?_modify, List.getD_eq_getElem?_getD, List.getElem?_eq_getElem (h.bucket_lt crc)]
  by_cases hsame : entry.crc &&& table.hashmask = crc &&& table.hashmask
  · simp only [if_pos hsame, if_pos (congrArg UInt32.toNat hsame)]; rfl
  · simp only [if_neg hsame, if_neg fun h => hsame (UInt32.toNat_inj.mp h)]; rfl

theorem lookup_insert (h : table.Sized) (entry : VerificationHashEntry) : (table.insert entry).lookup crc hash =
    table.lookup crc hash ++ if entry.Has crc hash then [entry] else [] := by
  rw [lookup_eq, lookup_eq, bucket_insert h]
  split
  · rw [SearchTree.chain_search_insert]
    simp only [VerificationHashEntry.key_eq_iff]
  · next hother =>
    have hnot : ¬entry.Has crc hash := fun hhas => hother (congrArg (· &&& table.hashmask) hhas.1)
    rw [if_neg hnot, List.append_nil]

theorem lookup_load (h : table.Sized) (entries : List VerificationHashEntry) :
    (entries.foldl HashTable.insert table).lookup crc hash = table.lookup crc hash ++ entries.filter (·.Has crc hash) := by
  induction entries generalizing table with
  | nil => exact (List.append_nil _).symm
  | cons entry entries ih =>
    rw [List.foldl_cons, ih (h.insert entry), lookup_insert h, List.append_assoc, List.filter_cons]
    split <;> simp_all

end HashTable

namespace Repairer

/-- All entries of the set, file by file. -/
def allEntries (s : Repairer) : List VerificationHashEntry := s.present.flatMap fun file => entries file.1 file.2

theorem flatMap_verifiable (files : List (Nat × SourceFile)) :
    ((files.filter (·.2.verificationpacket.isSome)).flatMap fun file => entries file.1 file.2) =
      files.flatMap fun file => entries file.1 file.2 := by
  induction files with
  | nil => rfl
  | cons file files ih =>
    rw [List.filter_cons, List.flatMap_cons, ← ih]
    cases hpacket : file.2.verificationpacket with
    | none =>
      have hnone : entries file.1 file.2 = [] := by
        unfold entries
        rw [hpacket]
      rw [hnone, List.nil_append]
      rfl
    | some packet => rfl

theorem lookup_prepareVerificationHashTable (s : Repairer) (crc : UInt32) (hash : List UInt8) :
    s.prepareVerificationHashTable.verificationhashtable.lookup crc hash = s.allEntries.filter (·.Has crc hash) := by
  unfold prepareVerificationHashTable allEntries
  dsimp only
  rw [HashTable.lookup_load (HashTable.sized_setLimit _), HashTable.lookup_setLimit, List.nil_append, flatMap_verifiable]

end Repairer
end Nget.Par2
