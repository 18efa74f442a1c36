import Nget.Lib.Blocks
import Nget.Md5

/-! The hash of an `MD5Context` is that of the padded message, whatever pieces the data came in. -/

namespace Nget
open Blocks

namespace MD5Context

/-- A block taken in. -/
def takeBlock (state : MD5State) (block : List UInt8) : MD5State := state.updateState (wordblock block)

/-- The context that has taken in the data. -/
def of (data : List UInt8) : MD5Context :=
  { state := (absorb buffersize takeBlock .reset data).1
    block := (absorb buffersize takeBlock .reset data).2
    bytes := UInt64.ofNat data.length }

theorem updateLoop_eq (state : MD5State) (block current : List UInt8) (h : block.length < buffersize) :
    updateLoop state block current = absorb buffersize takeBlock state (block ++ current) := by
  fun_induction updateLoop state block current with
  | case1 state block current hle room ih =>
    have hfull : (block ++ current.take room).length = buffersize := by
      rw [List.length_append, List.length_take]
      omega
    have hsplit : block ++ current = (block ++ current.take room) ++ current.drop room := by
      rw [List.append_assoc, List.take_append_drop]
    rw [ih (by decide), List.nil_append, hsplit, absorb_block (by decide) hfull]
    rfl
  | case2 state block current hlt => rw [absorb_short (by rw [List.length_append]; omega)]

theorem block_lt (data : List UInt8) : (of data).block.length < buffersize := by
  unfold of
  rw [absorb_rest (by decide)]
  exact Nat.mod_lt _ (by decide)

theorem new_eq : ({} : MD5Context) = of [] := by
  unfold of
  rw [absorb_short (by decide)]
  rfl

theorem of_update (data buffer : List UInt8) : (of data).update buffer = of (data ++ buffer) := by
  unfold update
  have happend : absorb buffersize takeBlock (of data).state ((of data).block ++ buffer) =
      absorb buffersize takeBlock .reset (data ++ buffer) := (absorb_append (by decide) _ _ _).symm
  rw [updateLoop_eq _ _ _ (block_lt data), happend]
  unfold of
  rw [List.length_append, UInt64.ofNat_add]

theorem of_updateZerosLoop (data : List UInt8) (length : Nat) :
    (of data).updateZerosLoop length = of (data ++ List.replicate length 0) := by
  induction length using Nat.strong_induction_on generalizing data with
  | h length ih =>
    rw [updateZerosLoop]
    by_cases hle : buffersize ≤ length
    · have hlt : length - buffersize < length := Nat.sub_lt_of_pos_le (by decide) hle
      rw [if_pos hle, of_update, ih _ hlt, List.append_assoc, List.replicate_append_replicate, Nat.add_sub_cancel' hle]
    · rw [if_neg hle]
      by_cases hpos : 0 < length
      · rw [if_pos hpos, of_update]
      · rw [if_neg hpos, Nat.eq_zero_of_not_pos hpos, List.replicate_zero, List.append_nil]

theorem of_updateZeros (data : List UInt8) (length : Nat) :
    (of data).updateZeros length = of (data ++ List.replicate length 0) := by
  unfold updateZeros
  split
  · dsimp only
    rw [of_update, of_updateZerosLoop, List.append_assoc, List.replicate_append_replicate,
      Nat.add_sub_cancel' (Nat.min_le_right _ _)]
  · exact of_updateZerosLoop data length

end MD5Context

/-! ### The hash -/

/-- The message with its padding and its length, of whole blocks. -/
def md5Message (data : List UInt8) : List UInt8 :=
  data ++ 0x80 :: List.replicate ((119 - data.length % 64) % 64) 0 ++ MD5Context.bitCount (UInt64.ofNat (8 * data.length))

/-- The MD5 hash of the data. -/
def md5Of (data : List UInt8) : List UInt8 :=
  (absorb MD5Context.buffersize MD5Context.takeBlock .reset (md5Message data)).1.output

theorem md5Message_length (data : List UInt8) : (md5Message data).length % MD5Context.buffersize = 0 := by
  unfold md5Message MD5Context.bitCount MD5Context.buffersize
  simp
  omega

theorem MD5Context.of_final (data : List UInt8) : (of data).final = md5Of data := by
  have hused : (of data).block.length = data.length % 64 := absorb_rest (by decide) _ _
  have hpad : padding (of data).block.length - 1 = (119 - data.length % 64) % 64 := by
    unfold padding buffersize
    rw [hused]
    split <;> omega
  have hbits : (of data).bytes <<< 3 = UInt64.ofNat (8 * data.length) := by
    refine UInt64.toNat_inj.mp ?_
    change (UInt64.ofNat data.length <<< 3).toNat = _
    rw [UInt64.toNat_shiftLeft, Nat.shiftLeft_eq]
    change data.length % 2 ^ 64 * 2 ^ 3 % 2 ^ 64 = 8 * data.length % 2 ^ 64
    omega
  unfold final
  dsimp only
  rw [hpad, hbits, of_update, of_update]
  rfl

/-- A piece of data: from a buffer, or a number of zeros. -/
inductive MD5Piece
  | buffer (data : List UInt8)
  | zeros (length : Nat)

namespace MD5Piece

def data : MD5Piece → List UInt8
  | .buffer data => data
  | .zeros length => List.replicate length 0

def update (context : MD5Context) : MD5Piece → MD5Context
  | .buffer data => context.update data
  | .zeros length => context.updateZeros length

end MD5Piece

/-- However the data is cut into pieces, the hash is that of the padded message, which is whole blocks. -/
theorem md5_of_pieces (pieces : List MD5Piece) :
    (pieces.foldl MD5Piece.update {}).final = md5Of (pieces.flatMap MD5Piece.data) ∧
    (md5Message (pieces.flatMap MD5Piece.data)).length % 64 = 0 := by
  have hpieces : ∀ (pieces : List MD5Piece) (data : List UInt8),
      pieces.foldl MD5Piece.update (.of data) = .of (data ++ pieces.flatMap MD5Piece.data) := fun pieces => by
    induction pieces with
    | nil => exact fun data => by rw [List.flatMap_nil, List.append_nil]; rfl
    | cons piece pieces ih =>
      intro data
      have hpiece : MD5Piece.update (.of data) piece = .of (data ++ piece.data) := by
        cases piece with
        | buffer buffer => exact MD5Context.of_update data buffer
        | zeros length => exact MD5Context.of_updateZeros data length
      rw [List.foldl_cons, hpiece, ih, List.append_assoc, List.flatMap_cons]
  rw [MD5Context.new_eq, hpieces, List.nil_append, MD5Context.of_final]
  exact ⟨rfl, md5Message_length _⟩

example : (MD5Context.update {} [0x61, 0x62, 0x63]).final =
    [0x90, 0x01, 0x50, 0x98, 0x3c, 0xd2, 0x4f, 0xb0, 0xd6, 0x96, 0x3f, 0x7d, 0x28, 0xe1, 0x7f, 0x72] := by decide +kernel

end Nget
