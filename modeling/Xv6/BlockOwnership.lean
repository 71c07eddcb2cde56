import Xv6.DirSpec

/- Block ownership: the operations on inodes keep the bit map and the inodes in step, given that
   the bits of the blocks before the data area are set. -/
namespace Xv6Fs
open Xv6 Bytes Outcome Ownership

inductive BlockOp where
  | bmap (ip : Ip) (bn : UInt32)
  | readi (ip : Ip) (dst : Buffer) (off n : UInt32)
  | writei (ip : Ip) (src : Buffer) (off n : UInt32)
  | itrunc (ip : Ip)
  | ialloc (type : UInt16)
  | dirlink (dp : Ip) (name : List UInt8) (inum : UInt32)
  | iput (ip : Ip)

namespace BlockOp

def run : BlockOp → M Unit
  | bmap ip bn => do
    let _ ← Xv6Fs.bmap ip bn.toNat
    pure ()
  | readi ip dst off n => do
    let _ ← Xv6Fs.readi ip dst off.toNat n.toNat
    pure ()
  | writei ip src off n => do
    let _ ← Xv6Fs.writei ip src off.toNat n.toNat
    pure ()
  | itrunc ip => Xv6Fs.itrunc ip
  | ialloc type => do
    let _ ← Xv6Fs.ialloc type
    pure ()
  | dirlink dp name inum => do
    let _ ← Xv6Fs.dirlink dp name inum.toNat
    pure ()
  | iput ip => Xv6Fs.iput ip

/-- What the callers see to: the inode is locked and allocated; the one given to iput has no
    links. -/
def Allowed (s : Fs) : BlockOp → Prop
  | bmap ip _ | readi ip _ _ _ | writei ip _ _ _ | itrunc ip | dirlink ip _ _ => Held s ip
  | ialloc _ => True
  | iput ip => 0 < (s.itable ip).ref ∧
      (Cached s ip → (s.itable ip).dn.type ≠ 0 ∧ (s.itable ip).dn.nlink = 0)

def need (s : Fs) : BlockOp → Nat
  | bmap ip bn => if bn.toNat < maxFile then bmapCost s.disk (s.itable ip).dn bn.toNat else 0
  | writei ip _ off n => writeiNeed s.disk (s.itable ip).dn off.toNat n.toNat
  | dirlink dp _ _ => writeiNeed s.disk (s.itable dp).dn (s.itable dp).dn.size.toNat direntSize
  | _ => 0

def panics : BlockOp → List String
  | bmap _ _ => ["bmap: out of range"]
  | ialloc _ => ["ialloc: no inodes", "iget: no inodes"]
  | dirlink _ _ _ => linkPanics
  | iput _ => ["deadlock"]
  | _ => []

end BlockOp

theorem panics_harmless (op : BlockOp) : ∀ msg ∈ op.panics,
    msg ≠ "freeing free block" ∧ msg ≠ "balloc: out of blocks" := by
  cases op <;> simp only [BlockOp.panics] <;> decide

theorem block_ownership_kept (s : Fs) (op : BlockOp) (inv : Inv s) (mine : op.Allowed s)
    (room : op.need s ≤ (freeBlocks s.sb s.disk).card) : Ends op.run s (fun _ t => Inv t)
      (fun msg => msg ∈ op.panics ∧ msg ≠ "freeing free block" ∧ msg ≠ "balloc: out of blocks") := by
  suffices kept : Ends op.run s (fun _ t => Inv t) (· ∈ op.panics) from
    ends_worse kept (fun msg member => ⟨member, panics_harmless op msg member⟩)
  cases op with
  | bmap ip bn =>
    apply ends_step (inv_bmap inv mine bn.toNat) _
    · intro _ t kept
      exact ends_pure kept
    rintro msg (rfl | ⟨range, _, short⟩)
    · exact List.mem_cons_self
    rw [BlockOp.need, if_pos range] at room
    exact absurd room (Nat.not_le.mpr short)
  | readi ip dst off n =>
    obtain ⟨r, result⟩ := inv_readi inv mine dst off.toNat n.toNat_lt
    apply known_then result
    exact ends_pure inv
  | writei ip src off n =>
    apply ends_step (inv_writei inv mine src off.toNat n.toNat_lt) _
    · intro _ t kept
      exact ends_pure kept
    rintro msg ⟨_, short⟩
    exact absurd room (Nat.not_le.mpr short)
  | itrunc ip =>
    apply ends_mono (inv_itrunc inv mine)
    · rintro _ t ⟨d, _, _, _, kept⟩
      exact kept
    · exact fun _ impossible => impossible.elim
  | ialloc type =>
    apply ends_step (inv_ialloc inv type) _
    · intro _ t kept
      exact ends_pure kept
    rintro msg (rfl | rfl)
    · exact List.mem_cons_self
    · exact List.mem_cons_of_mem _ List.mem_cons_self
  | dirlink dp name inum =>
    apply ends_step (inv_dirlink inv mine name inum.toNat) _
    · intro _ t kept
      exact ends_pure kept
    rintro msg (member | ⟨_, short⟩)
    · exact member
    · exact absurd room (Nat.not_le.mpr short)
  | iput ip =>
    apply ends_mono (inv_iput inv mine.1 mine.2) (fun _ _ => id)
    rintro msg rfl
    exact List.mem_cons_self

/-- The invariant without what it says of the bits before the data area. -/
structure DataInv (s : Fs) : Prop where
  table : Table s
  tracks : Tracks s.sb.Data (ownOf s.sb (view s) s.disk) (bit s.sb s.disk)
  full : ∀ i < s.sb.ninodes, (view s i).type ≠ 0 → Full s.disk (view s i)

theorem inv_iff (s : Fs) : Inv s ↔ DataInv s ∧ ∀ b < s.sb.dataStart, bit s.sb s.disk b = true := by
  constructor
  · intro inv
    exact ⟨⟨inv.table, inv.owned.tracks, inv.full⟩, inv.owned.reserved⟩
  rintro ⟨data, reserved⟩
  exact ⟨data.table, ⟨data.tracks, reserved⟩, data.full⟩

theorem dataInv_blank {s : Fs} (table : Table s)
    (blank : ∀ i < s.sb.ninodes, (∀ k, (view s i).addrs k = 0) ∧ (view s i).size = 0)
    (clear : ∀ b < s.sb.size, s.sb.dataStart ≤ b → bit s.sb s.disk b = false) : DataInv s := by
  have none : ∀ l, ownOf s.sb (view s) s.disk l = none := by
    rintro ⟨i, slot⟩
    unfold ownOf
    rw [if_neg]
    rintro ⟨inside, _, nz⟩
    apply nz
    cases slot with
    | addr k => rw [slotOf, (blank i inside).1]; rfl
    | word w => rw [slotOf, if_pos (by rw [Dinode.indirect, (blank i inside).1]; rfl)]
  refine ⟨table, ⟨?_, ?_, ?_⟩, ?_⟩
  · intro l b held
    rw [none] at held
    cases held
  · intro l m b held
    rw [none] at held
    cases held
  · intro b data
    rw [clear b data.2 data.1]
    simp [none]
  intro i inside _ bn below
  rw [(blank i inside).2] at below
  exact absurd below (Nat.not_lt_zero _)

/-- Sixteen blocks: inode 1 in block 2, the bit map in block 3, data from block 8 on. -/
def tinySb : Superblock where
  size := 16
  nblocks := 8
  ninodes := 2
  nlog := 0
  logstart := 2
  inodestart := 2
  bmapstart := 3
  log_end := by decide
  inodes_end := by decide
  bitmap_end := by decide
  blocks_inside := by decide
  small := by decide

def tinyFs (map : UInt8) : Fs where
  sb := tinySb
  disk b k := if b = 2 ∧ k = 64 then 2 else if b = 3 ∧ k = 0 then map else 0
  itable ip := if ip = 0 then ⟨1, 1, true, true, ⟨tFile, 0, 0, 1, 0, fun _ => 0⟩⟩
    else ⟨0, 0, false, false, blankDinode 0⟩

theorem tiny_table (map : UInt8) : Table (tinyFs map) := by
  have only : ∀ ip : Ip, 0 < ((tinyFs map).itable ip).ref → ip = 0 := by
    intro ip live
    by_contra other
    simp [tinyFs, other] at live
  refine ⟨?_, ?_, ?_⟩
  · intro ip jp first snd _
    rw [only ip first, only jp snd]
  · intro ip
    by_cases here : ip = 0
    · simp [tinyFs, here]
    · simp [tinyFs, here]
  intro ip cached
  rw [only ip cached.1]
  exact Nat.one_lt_two

theorem tiny_full : DataInv (tinyFs 0xff) :=
  dataInv_blank (tiny_table _) (by decide +kernel) (by decide +kernel)

theorem tiny_clear : DataInv (tinyFs 0) :=
  dataInv_blank (tiny_table _) (by decide +kernel) (by decide +kernel)

theorem tiny_held (map : UInt8) : Held (tinyFs map) 0 :=
  ⟨⟨Int.one_pos, rfl⟩, by change tFile ≠ 0; decide⟩

def tinyWrite : BlockOp := .writei 0 ⟨fun _ => 7, none⟩ 0 1

theorem block_ownership_kept_one_byte : Ends tinyWrite.run (tinyFs 0xff) (fun _ t => Inv t)
      (fun msg => msg ∈ tinyWrite.panics ∧ msg ≠ "freeing free block" ∧ msg ≠ "balloc: out of blocks") :=
  block_ownership_kept (tinyFs 0xff) tinyWrite ((inv_iff _).mpr ⟨tiny_full, by decide +kernel⟩)
    (tiny_held _) (by decide +kernel)

/-- With the bit of block 0 clear, balloc returns block 0, and the write leaves a hole. -/
theorem clear_metadata_bit_leaves_hole : ¬ ∀ (s : Fs) (op : BlockOp), DataInv s → op.Allowed s →
      op.need s ≤ (freeBlocks s.sb s.disk).card →
      Ends op.run s (fun _ t => DataInv t) (fun msg => msg ≠ "freeing free block") := by
  intro claimed
  have kept := claimed (tinyFs 0) tinyWrite tiny_clear (tiny_held _) (by decide +kernel)
  have hole : Ends tinyWrite.run (tinyFs 0)
      (fun _ t => 1 < t.sb.ninodes ∧ (view t 1).type ≠ 0 ∧ 0 * bSize < (view t 1).size.toNat ∧
        fileBlock t.disk (view t 1) 0 = 0) (fun _ => False) := by decide +kernel
  apply ends_never (ends_mono (ends_and kept hole) _ (fun _ panic => panic.2))
  rintro _ t ⟨data, inside, live, below, missing⟩
  exact data.full 1 inside live 0 below missing

end Xv6Fs
