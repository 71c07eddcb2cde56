import Mathlib.Algebra.Order.Group.Nat
import Mathlib.Data.Nat.Bitwise
import Xv6.Params
import Xv6.Lib.Bytes

/- The on-disk format of kernel/fs.h: the free bit map, the inodes and the data blocks, and
   that a write to one of the three leaves the others alone. -/
namespace Xv6Fs
open Xv6 Bytes Function

abbrev Block := Store
abbrev Disk := Nat → Block

abbrev nDirect : Nat := 12
abbrev nIndirect : Nat := 256
abbrev maxFile : Nat := nDirect + nIndirect
abbrev ipb : Nat := 16
abbrev bpb : Nat := 8192

instance (priority := 2000) neZeroAddrs : NeZero (nDirect + 1) := ⟨by decide⟩

/-- struct superblock, laid out as mkfs does: inode blocks, then the bit map, then the data
    blocks up to the end. -/
structure Superblock where
  size : Nat
  nblocks : Nat
  ninodes : Nat
  nlog : Nat
  logstart : Nat
  inodestart : Nat
  bmapstart : Nat
  log_end : logstart + nlog ≤ inodestart
  inodes_end : inodestart + (ninodes / ipb + 1) ≤ bmapstart
  bitmap_end : bmapstart + (size / bpb + 1) ≤ size - nblocks
  blocks_inside : nblocks ≤ size
  small : size < 0x80000000

namespace Superblock

def iblock (sb : Superblock) (i : Nat) : Nat := i / ipb + sb.inodestart
def bblock (sb : Superblock) (b : Nat) : Nat := b / bpb + sb.bmapstart

def dataStart (sb : Superblock) : Nat := sb.size - sb.nblocks

def Data (sb : Superblock) (b : Nat) : Prop := sb.dataStart ≤ b ∧ b < sb.size

variable (sb : Superblock)

theorem iblock_lt {i : Nat} (lt : i < sb.ninodes) : sb.iblock i < sb.bmapstart := by
  have := sb.inodes_end
  simp only [iblock, ipb] at *
  omega

theorem bblock_le (b : Nat) : sb.bmapstart ≤ sb.bblock b := Nat.le_add_left _ _

theorem bblock_lt {b : Nat} (lt : b < sb.size) : sb.bblock b < sb.dataStart := by
  have := sb.bitmap_end
  simp only [bblock, dataStart, bpb] at *
  omega

theorem bmapstart_lt : sb.bmapstart < sb.dataStart := by
  have := sb.bitmap_end
  simp only [dataStart, bpb] at *
  omega

theorem data_pos {b : Nat} (data : sb.Data b) : 0 < b := by
  have := sb.bmapstart_lt
  have := data.1
  omega

end Superblock

/- Bits of a bit map block: `bi` is the bit's index in it. -/
def bitMask (bi : Nat) : Nat := 1 <<< (bi % 8)

def bitClear (data : Block) (bi : Nat) : Bool := (data (bi / 8)).toNat &&& bitMask bi = 0

def markUsed (data : Block) (bi : Nat) : Block :=
  Function.update data (bi / 8) (UInt8.ofNat ((data (bi / 8)).toNat ||| bitMask bi))

def markFree (data : Block) (bi : Nat) : Block :=
  Function.update data (bi / 8) (UInt8.ofNat ((data (bi / 8)).toNat &&& (255 ^^^ bitMask bi)))

theorem bitClear_eq (data : Block) (bi : Nat) : bitClear data bi = !(data (bi / 8)).toNat.testBit (bi % 8) := by
  rw [bitClear, bitMask, Nat.one_shiftLeft, Nat.and_two_pow]
  cases (data (bi / 8)).toNat.testBit (bi % 8) <;> simp

theorem testBit_byte (v j : Nat) (small : j < 8) : (UInt8.ofNat v).toNat.testBit j = v.testBit j := by
  rw [UInt8.toNat_ofNat', Nat.testBit_mod_two_pow]
  simp [small]

theorem bitMask_testBit (bi j : Nat) : (bitMask bi).testBit j = decide (bi % 8 = j) := by
  rw [bitMask, Nat.one_shiftLeft, Nat.testBit_two_pow]

theorem bitClear_markUsed (data : Block) (bi bj : Nat) :
    bitClear (markUsed data bi) bj = if bj = bi then false else bitClear data bj := by
  rw [bitClear_eq, bitClear_eq, markUsed]
  have small : bj % 8 < 8 := Nat.mod_lt _ (by decide)
  by_cases byte : bj / 8 = bi / 8
  · rw [byte, update_self, testBit_byte _ _ small, Nat.testBit_or, bitMask_testBit]
    by_cases same : bj = bi
    · simp [same]
    have other : bi % 8 ≠ bj % 8 := by omega
    simp [same, other]
  have other : bj ≠ bi := fun same => byte (by rw [same])
  rw [update_of_ne byte, if_neg other]

theorem bitClear_markFree (data : Block) (bi bj : Nat) :
    bitClear (markFree data bi) bj = if bj = bi then true else bitClear data bj := by
  rw [bitClear_eq, bitClear_eq, markFree]
  have small : bj % 8 < 8 := Nat.mod_lt _ (by decide)
  by_cases byte : bj / 8 = bi / 8
  · have ones : Nat.testBit 255 (bj % 8) = true := by
      have := Nat.testBit_two_pow_sub_one 8 (bj % 8)
      simpa [small] using this
    rw [byte, update_self, testBit_byte _ _ small, Nat.testBit_and, Nat.testBit_xor, bitMask_testBit, ones]
    by_cases same : bj = bi
    · simp [same]
    have other : bi % 8 ≠ bj % 8 := by omega
    simp [same, other]
  have other : bj ≠ bi := fun same => byte (by rw [same])
  rw [update_of_ne byte, if_neg other]

/-- struct dinode, and struct inode's copy of it. -/
structure Dinode where
  type : UInt16
  major : Int16
  minor : Int16
  nlink : Int16
  size : UInt32
  addrs : Fin (nDirect + 1) → UInt32

/-- The bytes of a dinode: four shorts, the size, and the 13 block numbers. -/
def Dinode.byte (dn : Dinode) (k : Nat) : UInt8 :=
  if k < 2 then leByte dn.type.toNat k
  else if k < 4 then leByte dn.major.toUInt16.toNat (k - 2)
  else if k < 6 then leByte dn.minor.toUInt16.toNat (k - 4)
  else if k < 8 then leByte dn.nlink.toUInt16.toNat (k - 6)
  else if k < 12 then leByte dn.size.toNat (k - 8)
  else leByte (dn.addrs (Fin.ofNat _ ((k - 12) / 4))).toNat ((k - 12) % 4)

def readDinode (data : Block) (off : Nat) : Dinode where
  type := UInt16.ofNat (getLE data off 2)
  major := (UInt16.ofNat (getLE data (off + 2) 2)).toInt16
  minor := (UInt16.ofNat (getLE data (off + 4) 2)).toInt16
  nlink := (UInt16.ofNat (getLE data (off + 6) 2)).toInt16
  size := UInt32.ofNat (getLE data (off + 8) 4)
  addrs k := UInt32.ofNat (getLE data (off + 12 + 4 * k) 4)

def writeDinode (data : Block) (off : Nat) (dn : Dinode) : Block := putBytes data off 64 dn.byte

theorem getLE_writeDinode (data : Block) (off : Nat) (dn : Dinode) (k w v : Nat)
    (lt : k + w ≤ 64) (bytes : ∀ t < w, dn.byte (k + t) = leByte v t) :
    getLE (writeDinode data off dn) (off + k) w = v % 256 ^ w := by
  apply getLE_of_bytes
  intro t small
  rw [Nat.add_assoc, writeDinode, putBytes_inside _ _ _ _ _ (by omega), bytes t small]

theorem readDinode_writeDinode (data : Block) (off : Nat) (dn : Dinode) :
    readDinode (writeDinode data off dn) off = dn := by
  have type : getLE (writeDinode data off dn) (off + 0) 2 = dn.type.toNat % 256 ^ 2 := by
    apply getLE_writeDinode _ _ _ _ _ _ (by omega)
    intro t small
    rw [Dinode.byte, if_pos (by omega), Nat.zero_add]
  have major : getLE (writeDinode data off dn) (off + 2) 2 = dn.major.toUInt16.toNat % 256 ^ 2 := by
    apply getLE_writeDinode _ _ _ _ _ _ (by omega)
    intro t small
    rw [Dinode.byte, if_neg (by omega), if_pos (by omega), Nat.add_sub_cancel_left]
  have minor : getLE (writeDinode data off dn) (off + 4) 2 = dn.minor.toUInt16.toNat % 256 ^ 2 := by
    apply getLE_writeDinode _ _ _ _ _ _ (by omega)
    intro t small
    rw [Dinode.byte, if_neg (by omega), if_neg (by omega), if_pos (by omega), Nat.add_sub_cancel_left]
  have nlink : getLE (writeDinode data off dn) (off + 6) 2 = dn.nlink.toUInt16.toNat % 256 ^ 2 := by
    apply getLE_writeDinode _ _ _ _ _ _ (by omega)
    intro t small
    rw [Dinode.byte, if_neg (by omega), if_neg (by omega), if_neg (by omega), if_pos (by omega),
      Nat.add_sub_cancel_left]
  have size : getLE (writeDinode data off dn) (off + 8) 4 = dn.size.toNat % 256 ^ 4 := by
    apply getLE_writeDinode _ _ _ _ _ _ (by omega)
    intro t small
    rw [Dinode.byte, if_neg (by omega), if_neg (by omega), if_neg (by omega), if_neg (by omega),
      if_pos (by omega), Nat.add_sub_cancel_left]
  have addr : ∀ j : Fin (nDirect + 1), getLE (writeDinode data off dn) (off + (12 + 4 * j)) 4 =
      (dn.addrs j).toNat % 256 ^ 4 := by
    intro j
    have bound : j.val < 13 := j.isLt
    apply getLE_writeDinode _ _ _ _ _ _ (by omega)
    intro t small
    have word : Fin.ofNat (nDirect + 1) ((12 + 4 * j.val + t - 12) / 4) = j := by
      apply Fin.ext
      simp only [Fin.ofNat, nDirect]
      omega
    have place : (12 + 4 * j.val + t - 12) % 4 = t := by omega
    rw [Dinode.byte, if_neg (by omega), if_neg (by omega), if_neg (by omega), if_neg (by omega),
      if_neg (by omega), word, place]
  have short : ∀ x : UInt16, UInt16.ofNat (x.toNat % 256 ^ 2) = x := by
    intro x
    have small : x.toNat < 256 ^ 2 := x.toNat_lt
    rw [Nat.mod_eq_of_lt small, UInt16.ofNat_toNat]
  have long : ∀ x : UInt32, UInt32.ofNat (x.toNat % 256 ^ 4) = x := by
    intro x
    have small : x.toNat < 256 ^ 4 := x.toNat_lt
    rw [Nat.mod_eq_of_lt small, UInt32.ofNat_toNat]
  rw [Nat.add_zero] at type
  simp only [readDinode, type, major, minor, nlink, size, Nat.add_assoc off 12, addr, short, long]
  rfl

theorem readDinode_congr {data data' : Block} {off : Nat}
    (same : ∀ a, off ≤ a → a < off + 64 → data a = data' a) : readDinode data off = readDinode data' off := by
  have field : ∀ k w, k + w ≤ 64 → getLE data (off + k) w = getLE data' (off + k) w := by
    intro k w inside
    apply getLE_congr
    intro a lower upper
    exact same a (by omega) (by omega)
  have addr : ∀ j : Fin (nDirect + 1), getLE data (off + (12 + 4 * j)) 4 = getLE data' (off + (12 + 4 * j)) 4 := by
    intro j
    have bound : j.val < 13 := j.isLt
    exact field _ _ (by omega)
  have first := field 0 2 (by omega)
  rw [Nat.add_zero] at first
  simp only [readDinode, first, field 2 2 (by omega), field 4 2 (by omega), field 6 2 (by omega),
    field 8 4 (by omega), Nat.add_assoc off 12, addr]

theorem byte_readDinode (data : Block) (off k : Nat) (small : k < 64) :
    (readDinode data off).byte k = data (off + k) := by
  have short : ∀ a, (UInt16.ofNat (getLE data a 2)).toNat = getLE data a 2 := by
    intro a
    rw [UInt16.toNat_ofNat']
    exact Nat.mod_eq_of_lt (getLE_lt data a 2)
  have long : ∀ a, (UInt32.ofNat (getLE data a 4)).toNat = getLE data a 4 := by
    intro a
    rw [UInt32.toNat_ofNat']
    exact Nat.mod_eq_of_lt (getLE_lt data a 4)
  have field : ∀ a w t, t < w → off + k = a + t → leByte (getLE data a w) t = data (off + k) := by
    intro a w t inside place
    rw [leByte_getLE data a w t inside, place]
  unfold Dinode.byte readDinode
  simp only [UInt16.toUInt16_toInt16, short, long]
  split
  · exact field _ _ _ (by omega) (by omega)
  split
  · exact field _ _ _ (by omega) (by omega)
  split
  · exact field _ _ _ (by omega) (by omega)
  split
  · exact field _ _ _ (by omega) (by omega)
  split
  · exact field _ _ _ (by omega) (by omega)
  apply field _ _ _ (by omega)
  simp only [Fin.val_ofNat, nDirect]
  omega

theorem writeDinode_readDinode (data : Block) (off : Nat) : writeDinode data off (readDinode data off) = data :=
  putBytes_self data off 64 _ (byte_readDinode data off)

/- The three regions of a disk, with their reads and writes. -/
section
variable (sb : Superblock)

def bit (d : Disk) (b : Nat) : Bool := !bitClear (d (sb.bblock b)) (b % bpb)

def setUsed (d : Disk) (b : Nat) : Disk :=
  Function.update d (sb.bblock b) (markUsed (d (sb.bblock b)) (b % bpb))

def setFree (d : Disk) (b : Nat) : Disk :=
  Function.update d (sb.bblock b) (markFree (d (sb.bblock b)) (b % bpb))

def getDinode (d : Disk) (i : Nat) : Dinode := readDinode (d (sb.iblock i)) (64 * (i % ipb))

def putDinode (d : Disk) (i : Nat) (dn : Dinode) : Disk :=
  Function.update d (sb.iblock i) (writeDinode (d (sb.iblock i)) (64 * (i % ipb)) dn)

theorem same_bit {b c : Nat} (block : sb.bblock b = sb.bblock c) (index : b % bpb = c % bpb) : b = c := by
  simp only [Superblock.bblock, bpb] at *
  omega

theorem bit_setUsed (d : Disk) (b : Nat) : bit sb (setUsed sb d b) = update (bit sb d) b true := by
  funext c
  by_cases same : c = b
  · subst c
    simp [bit, setUsed, bitClear_markUsed]
  rw [update_of_ne same, bit, bit, setUsed]
  by_cases block : sb.bblock c = sb.bblock b
  · have index : c % bpb ≠ b % bpb := fun index => same (same_bit sb block index)
    rw [block, update_self, bitClear_markUsed, if_neg index]
  · rw [update_of_ne block]

theorem bit_setFree (d : Disk) (b : Nat) : bit sb (setFree sb d b) = update (bit sb d) b false := by
  funext c
  by_cases same : c = b
  · subst c
    simp [bit, setFree, bitClear_markFree]
  rw [update_of_ne same, bit, bit, setFree]
  by_cases block : sb.bblock c = sb.bblock b
  · have index : c % bpb ≠ b % bpb := fun index => same (same_bit sb block index)
    rw [block, update_self, bitClear_markFree, if_neg index]
  · rw [update_of_ne block]

theorem getDinode_putDinode (d : Disk) (i : Nat) (dn : Dinode) :
    getDinode sb (putDinode sb d i dn) = update (getDinode sb d) i dn := by
  funext j
  by_cases same : j = i
  · subst j
    rw [update_self, getDinode, putDinode, update_self, readDinode_writeDinode]
  rw [update_of_ne same, getDinode, getDinode, putDinode]
  by_cases block : sb.iblock j = sb.iblock i
  · rw [block, update_self]
    apply readDinode_congr
    intro a lower upper
    apply putBytes_outside
    simp only [Superblock.iblock, ipb] at *
    omega
  · rw [update_of_ne block]

theorem putDinode_putDinode (d : Disk) (i : Nat) (dn dn' : Dinode) :
    putDinode sb (putDinode sb d i dn) i dn' = putDinode sb d i dn' := by
  unfold putDinode
  rw [update_self, update_idem]
  unfold writeDinode
  rw [putBytes_putBytes]

theorem putDinode_getDinode (d : Disk) (i : Nat) : putDinode sb d i (getDinode sb d i) = d := by
  unfold putDinode getDinode
  rw [writeDinode_readDinode, update_eq_self]

/- A write to one block shows in no other region. -/
theorem bit_update {d : Disk} {c : Nat} {data : Block} {b : Nat} (apart : sb.bblock b ≠ c) :
    bit sb (update d c data) b = bit sb d b := by
  rw [bit, bit, update_of_ne apart]

theorem getDinode_update {d : Disk} {c : Nat} {data : Block} {i : Nat} (apart : sb.iblock i ≠ c) :
    getDinode sb (update d c data) i = getDinode sb d i := by
  rw [getDinode, getDinode, update_of_ne apart]

end

end Xv6Fs
