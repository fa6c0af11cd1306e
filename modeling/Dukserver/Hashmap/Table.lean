/-
# The hash map

`hashmap/hashmap.c`.  Each slot is the head of a list of nodes in memory; a key belongs
to the slot its checksum says, a new key is linked behind the last node, and deleting
unlinks a node wherever it stands.  The memory is a map from addresses to nodes, with
`NULL` the address `0`, and a call that allocates a node carries the address `malloc`
answers.

What the table is after any calls is in `Hashmap.Calls`.  Left out are strings that are
the table's own copies, and lengths beyond an `int`.
-/

import Dukserver.Http.Common
import Dukserver.Lib.Outcome
import Mathlib.Tactic.Positivity

namespace Dukserver
namespace Hashmap

open Http (Fault)
open Lib (Bytes cstr)

/-- `hashmap_list_t`: an address and two strings, `none` being `NULL`. -/
structure HashmapList where
  next : ℕ
  key : Option Bytes
  data : Option Bytes
  deriving DecidableEq, Repr

/-- The nodes that are allocated. -/
abbrev Memory := ℕ → Option HashmapList

/-- `hashmap_t`, with the memory of its nodes. -/
structure HashmapT where
  maxSlot : ℕ
  length : ℕ
  slot : List ℕ
  mem : Memory

/-- `_crc_lut16`. -/
def crcLut16 : List UInt16 := [
  0x0000, 0xc0c1, 0xc181, 0x0140, 0xc301, 0x03c0, 0x0280, 0xc241,
  0xc601, 0x06c0, 0x0780, 0xc741, 0x0500, 0xc5c1, 0xc481, 0x0440,
  0xcc01, 0x0cc0, 0x0d80, 0xcd41, 0x0f00, 0xcfc1, 0xce81, 0x0e40,
  0x0a00, 0xcac1, 0xcb81, 0x0b40, 0xc901, 0x09c0, 0x0880, 0xc841,
  0xd801, 0x18c0, 0x1980, 0xd941, 0x1b00, 0xdbc1, 0xda81, 0x1a40,
  0x1e00, 0xdec1, 0xdf81, 0x1f40, 0xdd01, 0x1dc0, 0x1c80, 0xdc41,
  0x1400, 0xd4c1, 0xd581, 0x1540, 0xd701, 0x17c0, 0x1680, 0xd641,
  0xd201, 0x12c0, 0x1380, 0xd341, 0x1100, 0xd1c1, 0xd081, 0x1040,
  0xf001, 0x30c0, 0x3180, 0xf141, 0x3300, 0xf3c1, 0xf281, 0x3240,
  0x3600, 0xf6c1, 0xf781, 0x3740, 0xf501, 0x35c0, 0x3480, 0xf441,
  0x3c00, 0xfcc1, 0xfd81, 0x3d40, 0xff01, 0x3fc0, 0x3e80, 0xfe41,
  0xfa01, 0x3ac0, 0x3b80, 0xfb41, 0x3900, 0xf9c1, 0xf881, 0x3840,
  0x2800, 0xe8c1, 0xe981, 0x2940, 0xeb01, 0x2bc0, 0x2a80, 0xea41,
  0xee01, 0x2ec0, 0x2f80, 0xef41, 0x2d00, 0xedc1, 0xec81, 0x2c40,
  0xe401, 0x24c0, 0x2580, 0xe541, 0x2700, 0xe7c1, 0xe681, 0x2640,
  0x2200, 0xe2c1, 0xe381, 0x2340, 0xe101, 0x21c0, 0x2080, 0xe041,
  0xa001, 0x60c0, 0x6180, 0xa141, 0x6300, 0xa3c1, 0xa281, 0x6240,
  0x6600, 0xa6c1, 0xa781, 0x6740, 0xa501, 0x65c0, 0x6480, 0xa441,
  0x6c00, 0xacc1, 0xad81, 0x6d40, 0xaf01, 0x6fc0, 0x6e80, 0xae41,
  0xaa01, 0x6ac0, 0x6b80, 0xab41, 0x6900, 0xa9c1, 0xa881, 0x6840,
  0x7800, 0xb8c1, 0xb981, 0x7940, 0xbb01, 0x7bc0, 0x7a80, 0xba41,
  0xbe01, 0x7ec0, 0x7f80, 0xbf41, 0x7d00, 0xbdc1, 0xbc81, 0x7c40,
  0xb401, 0x74c0, 0x7580, 0xb541, 0x7700, 0xb7c1, 0xb681, 0x7640,
  0x7200, 0xb2c1, 0xb381, 0x7340, 0xb101, 0x71c0, 0x7080, 0xb041,
  0x5000, 0x90c1, 0x9181, 0x5140, 0x9301, 0x53c0, 0x5280, 0x9241,
  0x9601, 0x56c0, 0x5780, 0x9741, 0x5500, 0x95c1, 0x9481, 0x5440,
  0x9c01, 0x5cc0, 0x5d80, 0x9d41, 0x5f00, 0x9fc1, 0x9e81, 0x5e40,
  0x5a00, 0x9ac1, 0x9b81, 0x5b40, 0x9901, 0x59c0, 0x5880, 0x9841,
  0x8801, 0x48c0, 0x4980, 0x8941, 0x4b00, 0x8bc1, 0x8a81, 0x4a40,
  0x4e00, 0x8ec1, 0x8f81, 0x4f40, 0x8d01, 0x4dc0, 0x4c80, 0x8c41,
  0x4400, 0x84c1, 0x8581, 0x4540, 0x8701, 0x47c0, 0x4680, 0x8641,
  0x8201, 0x42c0, 0x4380, 0x8341, 0x4100, 0x81c1, 0x8081, 0x4040]

/-- `_crc16`. -/
def crc16 (buf : Bytes) : UInt16 :=
  buf.foldl
    (fun r c => crcLut16.getD ((r &&& 0xff) ^^^ c.toUInt16).toNat 0 ^^^ ((r >>> 8) &&& 0xff)) 0xffff

/-- The loop of `hashmap_create` over the masks, with `n` rounds left. -/
def roundDown (maxSlot mask : ℤ) : ℕ → ℤ
  | 0 => maxSlot
  | n + 1 => if mask ≤ maxSlot then mask else roundDown maxSlot (mask / 2) n

/-- The number of slots `hashmap_create` makes of its argument. -/
def slotCount (maxSlot : ℤ) : ℤ :=
  if maxSlot ≤ 0 then 1
  else if 0x10000 < maxSlot then 0x10000
  else roundDown maxSlot 0x10000 16

/-- `hashmap_create`. -/
def hashmapCreate (maxSlot : ℤ) : HashmapT where
  maxSlot := (slotCount maxSlot).toNat
  length := 0
  slot := List.replicate (slotCount maxSlot).toNat 0
  mem _ := none

/-- The slot of a string: `_crc16(k, strlen(k)) % m->max_slot`. -/
def slotOf (maxSlot : ℕ) (k : Bytes) : ℕ := (crc16 k).toNat % maxSlot

/-- `m->slot[i]` is read. -/
def readSlot (slot : List ℕ) (i : ℕ) : Except Fault ℕ :=
  match slot[i]? with
  | none => .error .outOfBounds
  | some p => .ok p

/-- `*p` is read. -/
def deref (mem : Memory) (p : ℕ) : Except Fault HashmapList :=
  if p = 0 then .error .nullPointer
  else match mem p with
    | none => .error .useAfterFree
    | some node => .ok node

/-- The loop that compares the keys of the nodes from `p` on with `k`: `prev`
and `p` as it leaves them, where `prev` is `none` as long as it is not set. -/
def search (mem : Memory) (k : Bytes) : ℕ → Option ℕ → ℕ → Except Fault (Option ℕ × ℕ)
  | 0, _, _ => .error .outOfFuel
  | fuel + 1, prev, p =>
    if p = 0 then .ok (prev, 0)
    else do
      let node ← deref mem p
      match node.key with
      | none => .error .nullPointer
      | some key => if key == cstr k then .ok (prev, p) else search mem k fuel (some p) node.next

/-- `hashmap_set`; `a` is what `malloc` answers. -/
def hashmapSet (m : HashmapT) (k v : Bytes) (a : ℕ) : Except Fault (HashmapT × ℕ) := do
  let h := slotOf m.maxSlot (cstr k)
  let new : HashmapList := ⟨0, some (cstr k), some (cstr v)⟩
  let s ← readSlot m.slot h
  if s = 0 then
    return ({ m with
      length := m.length + 1, slot := m.slot.set h a, mem := Function.update m.mem a new }, 1)
  else
    let (prev, p) ← search m.mem k (m.length + 1) none s
    if p = 0 then
      match prev with
      | none => .error .uninitialised
      | some q =>
        let node ← deref m.mem q
        let mem := Function.update m.mem q (some { node with next := a })
        return ({ m with length := m.length + 1, mem := Function.update mem a new }, 1)
    else
      let node ← deref m.mem p
      let mem := Function.update m.mem p (some { node with data := some (cstr v) })
      return ({ m with mem }, 0)

/-- `hashmap_get`. -/
def hashmapGet (m : HashmapT) (k : Bytes) : Except Fault (Option Bytes) := do
  let s ← readSlot m.slot (slotOf m.maxSlot (cstr k))
  if s = 0 then return none
  else
    let (_, p) ← search m.mem k (m.length + 1) none s
    if p = 0 then return none
    else return (← deref m.mem p).data

/-- `hashmap_del`. -/
def hashmapDel (m : HashmapT) (k : Bytes) : Except Fault (HashmapT × ℕ) := do
  let h := slotOf m.maxSlot (cstr k)
  let s ← readSlot m.slot h
  if s = 0 then return (m, 0)
  else
    let (prev, p) ← search m.mem k (m.length + 1) (some s) s
    if p = 0 then return (m, 0)
    else
      let node ← deref m.mem p
      if p = s then
        return ({ m with
          length := m.length - 1, slot := m.slot.set h node.next,
          mem := Function.update m.mem p none }, 1)
      else
        match prev with
        | none => .error .uninitialised
        | some q =>
          let before ← deref m.mem q
          let mem := Function.update m.mem q (some { before with next := node.next })
          return ({ m with length := m.length - 1, mem := Function.update mem p none }, 1)

/-- The loop of `hashmap_dump` over the nodes of a chain, with the keys it
prints. -/
def dumpChain (mem : Memory) : ℕ → ℕ → Except Fault (List (Option Bytes))
  | 0, _ => .error .outOfFuel
  | fuel + 1, p =>
    if p = 0 then .ok []
    else do
      let node ← deref mem p
      let rest ← dumpChain mem fuel node.next
      return node.key :: rest

/-- `hashmap_dump`: for each slot the keys of its chain. -/
def hashmapDump (m : HashmapT) : Except Fault (List (List (Option Bytes))) :=
  (List.range m.maxSlot).mapM fun i => do dumpChain m.mem (m.length + 1) (← readSlot m.slot i)

/-- `hashmap_iter_t`. -/
structure HashmapIter where
  m : HashmapT
  idxSlot : ℕ
  idxList : ℕ
  key : Option Bytes
  data : Option Bytes

/-- The loop that looks for a slot that is not empty, with `n` slots left. -/
def nextSlot (slot : List ℕ) (i : ℕ) : ℕ → Except Fault ℕ
  | 0 => .ok i
  | n + 1 => do
    if (← readSlot slot i) = 0 then nextSlot slot (i + 1) n else return i

/-- The iterator at the head of the chain of slot `i`. -/
def enterSlot (iter : HashmapIter) (i : ℕ) : Except Fault HashmapIter := do
  let p ← readSlot iter.m.slot i
  let node ← deref iter.m.mem p
  return { iter with idxSlot := i, idxList := p, key := node.key, data := node.data }

/-- `hashmap_begin`. -/
def hashmapBegin (m : HashmapT) : Except Fault HashmapIter := do
  let iter : HashmapIter := ⟨m, 0, 0, none, none⟩
  if m.length = 0 then return iter
  else enterSlot iter (← nextSlot m.slot 0 m.maxSlot)

/-- `hashmap_valid`. -/
def hashmapValid (iter : HashmapIter) : Bool := iter.key.isSome

/-- `hashmap_next`. -/
def hashmapNext (iter : HashmapIter) : Except Fault HashmapIter :=
  if iter.key.isNone then .ok iter
  else do
    let node ← deref iter.m.mem iter.idxList
    if node.next = 0 then
      let i ← nextSlot iter.m.slot (iter.idxSlot + 1) (iter.m.maxSlot - (iter.idxSlot + 1))
      if i = iter.m.maxSlot then return { iter with key := none, data := none }
      else enterSlot iter i
    else
      let node' ← deref iter.m.mem node.next
      return { iter with idxList := node.next, key := node'.key, data := node'.data }

/-- The rounds of a loop from this iterator on, each with the pair it sees. -/
def rounds : ℕ → HashmapIter → Except Fault (List (Option Bytes × Option Bytes))
  | 0, _ => .error .outOfFuel
  | fuel + 1, iter =>
    if hashmapValid iter then do
      let rest ← rounds fuel (← hashmapNext iter)
      return (iter.key, iter.data) :: rest
    else .ok []

/-- `for (hashmap_begin(m, &iter);hashmap_valid(&iter);hashmap_next(&iter))`. -/
def visit (m : HashmapT) : Except Fault (List (Option Bytes × Option Bytes)) := do
  rounds (m.length + 1) (← hashmapBegin m)

/-! ### The number of slots -/

/-- The loop stops at a power of two: it halves one until the number reaches it. -/
theorem roundDown_pow {maxSlot : ℤ} {n : ℕ} (hpos : 1 ≤ maxSlot) (hlt : maxSlot < 2 ^ (n + 1)) :
    ∃ j ≤ n, roundDown maxSlot (2 ^ n) n = 2 ^ j := by
  induction n with
  | zero => exact ⟨0, le_rfl, by rw [roundDown]; omega⟩
  | succ n ih =>
    rw [roundDown]
    split_ifs with hmask
    · exact ⟨n + 1, le_rfl, rfl⟩
    · have hhalf : (2 : ℤ) ^ (n + 1) / 2 = 2 ^ n := by
        rw [pow_succ]
        omega
      obtain ⟨j, hj, hround⟩ := ih (by omega)
      exact ⟨j, by omega, by rw [hhalf, hround]⟩

/-- **The number of slots is a power of two up to 65536**, whatever was asked
for. -/
theorem slotCount_pow (maxSlot : ℤ) : ∃ j ≤ 16, slotCount maxSlot = 2 ^ j := by
  rw [slotCount]
  split_ifs with hneg hlarge
  · exact ⟨0, by decide, rfl⟩
  · exact ⟨16, le_rfl, rfl⟩
  · exact roundDown_pow (n := 16) (by omega) (by omega)

/-- So there is a slot. -/
theorem slotCount_pos (maxSlot : ℤ) : 0 < slotCount maxSlot := by
  obtain ⟨j, -, hj⟩ := slotCount_pow maxSlot
  rw [hj]
  positivity

end Hashmap
end Dukserver
