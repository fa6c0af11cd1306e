/-
# The checksum of the hash map

`hashmap/hashmap.c`, `_crc16`, which works by the table `_crc_lut16`, against the definition of
CRC-16/MODBUS: the register starts with all bits set, each byte is added to its low end and
shifted out bit by bit with the reflected polynomial, and the register is the result.
-/

import Dukserver.Hashmap.Table
import Dukserver.Lib.Crc

namespace Dukserver
namespace Hashmap

open Lib (Bytes crc crcChunk crcLookup crcShift)

/-- The polynomial, reflected. -/
def MODBUS_POLY : BitVec 16 := 0xa001

/-- CRC-16/MODBUS, bit by bit. -/
def crc16Modbus (buf : Bytes) : BitVec 16 := crc MODBUS_POLY 0xffff (buf.map UInt8.toBitVec)

/-- An entry of `_crc_lut16`. -/
def lutEntry (b : BitVec 8) : BitVec 16 := (crcLut16.getD b.toNat 0).toBitVec

/-- **The table has the shifts of each byte.** -/
theorem lutEntry_eq (b : BitVec 8) :
    lutEntry b = (crcShift MODBUS_POLY)^[8] (b.setWidth 16) := by
  revert b
  decide +kernel

/-- The mask keeps the low byte. -/
theorem and_mask (x : BitVec 16) : x &&& 0xff = (x.setWidth 8).setWidth 16 := by
  refine BitVec.eq_of_getLsbD_eq fun i hi => ?_
  have hmask : (0xff : BitVec 16).getLsbD i = decide (i < 8) := by
    revert i
    decide
  rw [BitVec.getLsbD_and, hmask, BitVec.getLsbD_setWidth, BitVec.getLsbD_setWidth]
  simp [hi, Bool.and_comm]

/-- A pass of the loop.  The index into the table is the low byte of the
register with the byte of the text, and what is shifted in from the left is
zero. -/
theorem crcStep_toBitVec (r : UInt16) (c : UInt8) :
    (crcLut16.getD ((r &&& 0xff) ^^^ c.toUInt16).toNat 0 ^^^ ((r >>> 8) &&& 0xff)).toBitVec =
      crcLookup lutEntry r.toBitVec c.toBitVec := by
  have hindex : ((r &&& 0xff) ^^^ c.toUInt16).toBitVec =
      ((r.toBitVec ^^^ c.toBitVec.setWidth 16).setWidth 8).setWidth 16 := by
    have hlow : (r &&& 0xff).toBitVec = (r.toBitVec.setWidth 8).setWidth 16 := and_mask r.toBitVec
    rw [UInt16.toBitVec_xor, hlow, UInt8.toBitVec_toUInt16, BitVec.setWidth_xor,
      BitVec.setWidth_xor, BitVec.setWidth_setWidth_of_le c.toBitVec (by decide),
      BitVec.setWidth_eq]
  have hshift : ((r >>> 8) &&& 0xff).toBitVec = r.toBitVec >>> 8 := by
    have hlow : ((r.toBitVec >>> 8).setWidth 8).setWidth 16 = r.toBitVec >>> 8 := by
      refine BitVec.eq_of_toNat_eq ?_
      rw [BitVec.toNat_setWidth_of_le (by decide), BitVec.toNat_setWidth, BitVec.toNat_ushiftRight,
        Nat.shiftRight_eq_div_pow]
      omega
    exact (and_mask _).trans hlow
  rw [UInt16.toBitVec_xor, hshift, crcLookup, lutEntry, ← UInt16.toNat_toBitVec, hindex,
    BitVec.toNat_setWidth_of_le (by decide)]

/-- **`_crc16` is CRC-16/MODBUS.** -/
theorem crc16_toBitVec (buf : Bytes) : (crc16 buf).toBitVec = crc16Modbus buf := by
  rw [crc16Modbus, ← Lib.foldl_crcLookup lutEntry_eq, List.foldl_map, crc16]
  exact (List.foldl_hom UInt16.toBitVec fun r c => (crcStep_toBitVec r c).symm).symm

example : crc16Modbus (Lib.ascii "123456789") = 0x4b37 := by decide +kernel

end Hashmap
end Dukserver
