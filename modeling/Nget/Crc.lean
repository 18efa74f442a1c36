import Mathlib

/-! The CCITT CRC32 of blocks of data (`par2/crc.h`, `par2/crc.cpp`): byte by byte with a table, and sliding by one byte with a
    table and a mask for the length of the window. -/

namespace Nget

/-- A turn of the inner loop of `GenerateCRC32Table`. -/
def crcBit (polynomial crc : UInt32) : UInt32 := (crc >>> 1) ^^^ (if crc &&& 1 ≠ 0 then polynomial else 0)

/-- `GenerateCRC32Table`. -/
def generateCRC32Table (polynomial : UInt32) (i : UInt8) : UInt32 := (crcBit polynomial)^[8] i.toUInt32

/-- The one and only table. -/
def ccitttable : UInt8 → UInt32 := generateCRC32Table 0xEDB88320

def crcUpdateChar (crc : UInt32) (ch : UInt8) : UInt32 := ((crc >>> 8) &&& 0x00ffffff) ^^^ ccitttable (crc.toUInt8 ^^^ ch)

/-- `CRCUpdateBlock` with the characters of a buffer. -/
def crcUpdateBlock (crc : UInt32) (buffer : List UInt8) : UInt32 := buffer.foldl crcUpdateChar crc

/-- A turn of the loop of `CRCUpdateBlock` with zeros. -/
def crcUpdateZero (crc : UInt32) : UInt32 := ((crc >>> 8) &&& 0x00ffffff) ^^^ ccitttable crc.toUInt8

/-- `CRCUpdateBlock` with a number of zeros. -/
def crcUpdateZeros (crc : UInt32) (length : Nat) : UInt32 := crcUpdateZero^[length] crc

def generateWindowTable (window : Nat) (i : UInt8) : UInt32 := crcUpdateZero^[window] (ccitttable i)

def computeWindowMask (window : Nat) : UInt32 := (crcUpdateChar · 0)^[window] (~~~0) ^^^ ~~~0

def crcSlideChar (crc : UInt32) (chNew chOld : UInt8) (windowtable : UInt8 → UInt32) : UInt32 :=
  ((crc >>> 8) &&& 0x00ffffff) ^^^ ccitttable (crc.toUInt8 ^^^ chNew) ^^^ windowtable chOld

end Nget
