import Mathlib

/-! The MD5 hash of data that comes in pieces (`par2/md5.h`, `par2/md5.cpp`). -/

namespace Nget

/-! ### The state -/

/-- `MD5State`. -/
structure MD5State where
  a : UInt32
  b : UInt32
  c : UInt32
  d : UInt32
deriving DecidableEq

namespace MD5State

def reset : MD5State := ⟨0x67452301, 0xefcdab89, 0x98badcfe, 0x10325476⟩

def f1 (x y z : UInt32) : UInt32 := (x &&& y) ||| (~~~x &&& z)
def f2 (x y z : UInt32) : UInt32 := (x &&& z) ||| (~~~z &&& y)
def f3 (x y z : UInt32) : UInt32 := x ^^^ y ^^^ z
def f4 (x y z : UInt32) : UInt32 := y ^^^ (x ||| ~~~z)

def rol (x y : UInt32) : UInt32 := (x <<< y) ||| ((x >>> (32 - y)) &&& ((1 <<< y) - 1))

/-- The lines `ROUND(f, ..., k, s, ti)` that have the same function. -/
def rounds1 : List (Fin 16 × UInt32 × UInt32) := [
  (0, 7, 0xd76aa478), (1, 12, 0xe8c7b756), (2, 17, 0x242070db), (3, 22, 0xc1bdceee),
  (4, 7, 0xf57c0faf), (5, 12, 0x4787c62a), (6, 17, 0xa8304613), (7, 22, 0xfd469501),
  (8, 7, 0x698098d8), (9, 12, 0x8b44f7af), (10, 17, 0xffff5bb1), (11, 22, 0x895cd7be),
  (12, 7, 0x6b901122), (13, 12, 0xfd987193), (14, 17, 0xa679438e), (15, 22, 0x49b40821)]

def rounds2 : List (Fin 16 × UInt32 × UInt32) := [
  (1, 5, 0xf61e2562), (6, 9, 0xc040b340), (11, 14, 0x265e5a51), (0, 20, 0xe9b6c7aa),
  (5, 5, 0xd62f105d), (10, 9, 0x02441453), (15, 14, 0xd8a1e681), (4, 20, 0xe7d3fbc8),
  (9, 5, 0x21e1cde6), (14, 9, 0xc33707d6), (3, 14, 0xf4d50d87), (8, 20, 0x455a14ed),
  (13, 5, 0xa9e3e905), (2, 9, 0xfcefa3f8), (7, 14, 0x676f02d9), (12, 20, 0x8d2a4c8a)]

def rounds3 : List (Fin 16 × UInt32 × UInt32) := [
  (5, 4, 0xfffa3942), (8, 11, 0x8771f681), (11, 16, 0x6d9d6122), (14, 23, 0xfde5380c),
  (1, 4, 0xa4beea44), (4, 11, 0x4bdecfa9), (7, 16, 0xf6bb4b60), (10, 23, 0xbebfbc70),
  (13, 4, 0x289b7ec6), (0, 11, 0xeaa127fa), (3, 16, 0xd4ef3085), (6, 23, 0x04881d05),
  (9, 4, 0xd9d4d039), (12, 11, 0xe6db99e5), (15, 16, 0x1fa27cf8), (2, 23, 0xc4ac5665)]

def rounds4 : List (Fin 16 × UInt32 × UInt32) := [
  (0, 6, 0xf4292244), (7, 10, 0x432aff97), (14, 15, 0xab9423a7), (5, 21, 0xfc93a039),
  (12, 6, 0x655b59c3), (3, 10, 0x8f0ccc92), (10, 15, 0xffeff47d), (1, 21, 0x85845dd1),
  (8, 6, 0x6fa87e4f), (15, 10, 0xfe2ce6e0), (6, 15, 0xa3014314), (13, 21, 0x4e0811a1),
  (4, 6, 0xf7537e82), (11, 10, 0xbd3af235), (2, 15, 0x2ad7d2bb), (9, 21, 0xeb86d391)]

/-- `ROUND`. The next line has its first variable where this one has its last. -/
def round (f : UInt32 → UInt32 → UInt32 → UInt32) (block : Fin 16 → UInt32) (w : MD5State) (line : Fin 16 × UInt32 × UInt32) :
    MD5State :=
  ⟨w.d, w.b + rol (w.a + f w.b w.c w.d + block line.1 + line.2.2) line.2.1, w.b, w.c⟩

def updateState (state : MD5State) (block : Fin 16 → UInt32) : MD5State :=
  let w := rounds1.foldl (round f1 block) state
  let w := rounds2.foldl (round f2 block) w
  let w := rounds3.foldl (round f3 block) w
  let w := rounds4.foldl (round f4 block) w
  ⟨state.a + w.a, state.b + w.b, state.c + w.c, state.d + w.d⟩

end MD5State

/-- Source data is converted from little endian. -/
def wordblock (block : List UInt8) (i : Fin 16) : UInt32 :=
  ((block.getD (i * 4 + 3) 0).toUInt32 <<< 24) ||| ((block.getD (i * 4 + 2) 0).toUInt32 <<< 16) |||
    ((block.getD (i * 4 + 1) 0).toUInt32 <<< 8) ||| ((block.getD (i * 4) 0).toUInt32 <<< 0)

def wordBytes (word : UInt32) : List UInt8 :=
  [(word >>> 0).toUInt8, (word >>> 8).toUInt8, (word >>> 16).toUInt8, (word >>> 24).toUInt8]

/-- The state as a hash. -/
def MD5State.output (state : MD5State) : List UInt8 :=
  wordBytes state.a ++ wordBytes state.b ++ wordBytes state.c ++ wordBytes state.d

/-! ### The context -/

/-- `MD5Context`, with the bytes of `block` that are used. -/
structure MD5Context where
  state : MD5State := .reset
  block : List UInt8 := []
  bytes : UInt64 := 0

namespace MD5Context

def buffersize : Nat := 64

/-- The loop of `Update` over whole blocks, and the remainder. -/
def updateLoop (state : MD5State) (block current : List UInt8) : MD5State × List UInt8 :=
  if buffersize ≤ block.length + current.length then
    let room := buffersize - block.length
    updateLoop (state.updateState (wordblock (block ++ current.take room))) [] (current.drop room)
  else (state, block ++ current)
termination_by block.length + current.length
decreasing_by
  rename_i h
  unfold buffersize at *
  rw [List.length_nil, List.length_drop]
  omega

/-- `Update` with data from a buffer. -/
def update (context : MD5Context) (buffer : List UInt8) : MD5Context :=
  let (state, block) := updateLoop context.state context.block buffer
  { state, block, bytes := context.bytes + UInt64.ofNat buffer.length }

/-- The loop of `Update` with zeros over whole buffers, and the remainder. -/
def updateZerosLoop (context : MD5Context) (length : Nat) : MD5Context :=
  if buffersize ≤ length then updateZerosLoop (context.update (List.replicate buffersize 0)) (length - buffersize)
  else if 0 < length then context.update (List.replicate length 0)
  else context
termination_by length
decreasing_by
  unfold buffersize at *
  omega

/-- `Update` with a number of zeros. -/
def updateZeros (context : MD5Context) (length : Nat) : MD5Context :=
  if 0 < context.block.length then
    let size := min (buffersize - context.block.length) length
    updateZerosLoop (context.update (List.replicate size 0)) (length - size)
  else updateZerosLoop context length

/-- The eight bytes of the bit count. -/
def bitCount (bits : UInt64) : List UInt8 :=
  [(bits >>> 0).toUInt8, (bits >>> 8).toUInt8, (bits >>> 16).toUInt8, (bits >>> 24).toUInt8,
    (bits >>> 32).toUInt8, (bits >>> 40).toUInt8, (bits >>> 48).toUInt8, (bits >>> 56).toUInt8]

def padding (used : Nat) : Nat :=
  if buffersize - 8 ≤ used then buffersize - 8 + buffersize - used else buffersize - 8 - used

/-- `Final`. -/
def final (context : MD5Context) : List UInt8 :=
  let bits := context.bytes <<< 3
  let context := context.update (0x80 :: List.replicate (padding context.block.length - 1) 0)
  (context.update (bitCount bits)).state.output

end MD5Context
end Nget
