import LibarchiveOxide.Core.Failure

/-! # CRC-32

The IEEE CRC-32, bit by bit. Folding bytes in pieces gives the checksum of the whole, so a running
checksum stands for the bytes that went into it. -/

namespace LibarchiveOxide.Codecs.Crc

open Core.Failure

/-- One bit of a byte. -/
def shift (crc : UInt32) : UInt32 := (crc >>> 1) ^^^ (0xEDB88320 &&& (0 - (crc &&& 1)))

/-- One byte. -/
def step (crc : UInt32) (byte : Byte) : UInt32 :=
  shift (shift (shift (shift (shift (shift (shift (shift (crc ^^^ byte.toUInt32))))))))

/-- `Crc32`. -/
structure Crc32 where
  state : UInt32 := 0xFFFFFFFF
deriving DecidableEq

/-- `Crc32::update`. -/
def Crc32.update (c : Crc32) (data : List Byte) : Crc32 := ⟨data.foldl step c.state⟩

/-- `Crc32::finalize`. -/
def Crc32.finalize (c : Crc32) : UInt32 := ~~~ c.state

/-- `crc32`. -/
def crc32 (data : List Byte) : UInt32 := (({} : Crc32).update data).finalize

theorem Crc32.update_append (c : Crc32) (a b : List Byte) :
    c.update (a ++ b) = (c.update a).update b := by
  unfold Crc32.update
  rw [List.foldl_append]

/-- The check value of the algorithm. -/
example : crc32 [0x31, 0x32, 0x33, 0x34, 0x35, 0x36, 0x37, 0x38, 0x39] = 0xCBF43926 := by
  decide +kernel

end LibarchiveOxide.Codecs.Crc
