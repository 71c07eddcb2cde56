import Xv6.Disk

/- kernel/fs.c: the block allocator, the inode table and file contents. The disk is what
   bread returns: the buffer cache over the log. Operations run one at a time. -/
namespace Xv6Fs
open Xv6 Bytes

abbrev nInode : Nat := 50
abbrev rootIno : Nat := 1
abbrev tDir : UInt16 := 1
abbrev tFile : UInt16 := 2
abbrev tDevice : UInt16 := 3

structure Inode where
  inum : Nat
  ref : Int
  locked : Bool
  valid : Bool
  dn : Dinode

namespace Dinode

def setType (dn : Dinode) (type : UInt16) : Dinode := { dn with type := type }
def setNlink (dn : Dinode) (nlink : Int16) : Dinode := { dn with nlink := nlink }
def setSize (dn : Dinode) (size : UInt32) : Dinode := { dn with size := size }
def setAddr (dn : Dinode) (k : Fin (nDirect + 1)) (b : UInt32) : Dinode :=
  { dn with addrs := Function.update dn.addrs k b }

end Dinode

namespace Inode

def setRef (e : Inode) (ref : Int) : Inode := { e with ref := ref }
def setLocked (e : Inode) (locked : Bool) : Inode := { e with locked := locked }
def setValid (e : Inode) (valid : Bool) : Inode := { e with valid := valid }
def setDn (e : Inode) (dn : Dinode) : Inode := { e with dn := dn }

end Inode

abbrev Ip := Fin nInode

structure Fs where
  sb : Superblock
  disk : Disk
  itable : Ip → Inode

abbrev M := StateT Fs (Except String)

def Fs.setDisk (s : Fs) (d : Disk) : Fs := { s with disk := d }

def Fs.setIp (s : Fs) (ip : Ip) (e : Inode) : Fs :=
  { s with itable := Function.update s.itable ip e }

def Fs.setDn (s : Fs) (ip : Ip) (dn : Dinode) : Fs := s.setIp ip ((s.itable ip).setDn dn)

def updIp (ip : Ip) (f : Inode → Inode) : M Unit := modify fun s => s.setIp ip (f (s.itable ip))

def updDn (ip : Ip) (f : Dinode → Dinode) : M Unit :=
  modify fun s => s.setDn ip (f (s.itable ip).dn)

def bread (b : Nat) : M Block := do
  let s ← get
  pure (s.disk b)

def logWrite (b : Nat) (data : Block) : M Unit :=
  modify fun s => s.setDisk (Function.update s.disk b data)

def bzero (b : Nat) : M Unit := logWrite b (fun _ => 0)

/-- balloc's inner loop over the bits of one bit map block, for blocks b + bi. -/
def ballocBits (b : Nat) : Nat → Nat → M (Option Nat)
  | 0, _ => pure none
  | fuel + 1, bi => do
    let s ← get
    if bi < bpb ∧ b + bi < s.sb.size then do
      let data ← bread (s.sb.bblock b)
      if bitClear data bi then do
        logWrite (s.sb.bblock b) (markUsed data bi)
        bzero (b + bi)
        pure (some (b + bi))
      else ballocBits b fuel (bi + 1)
    else pure none

/-- balloc's outer loop, from block b on. -/
def ballocFrom : Nat → Nat → M Nat
  | 0, _ => throw "balloc: out of blocks"
  | fuel + 1, b => do
    let s ← get
    if b < s.sb.size then do
      match ← ballocBits b bpb 0 with
      | some r => pure r
      | none => ballocFrom fuel (b + bpb)
    else throw "balloc: out of blocks"

def balloc : M Nat := do
  let s ← get
  ballocFrom (s.sb.size / bpb + 1) 0

def bfree (b : Nat) : M Unit := do
  let s ← get
  let data ← bread (s.sb.bblock b)
  if bitClear data (b % bpb) then throw "freeing free block"
  else logWrite (s.sb.bblock b) (markFree data (b % bpb))

def iget (inum : Nat) : M Ip := do
  let s ← get
  match (List.finRange nInode).find? fun ip => 0 < (s.itable ip).ref ∧ (s.itable ip).inum = inum with
  | some ip => do
    updIp ip fun e => e.setRef (e.ref + 1)
    pure ip
  | none =>
    match (List.finRange nInode).find? fun ip => (s.itable ip).ref = 0 with
    | none => throw "iget: no inodes"
    | some ip => do
      updIp ip fun e => { e with inum := inum, ref := 1, valid := false }
      pure ip

def idup (ip : Ip) : M Ip := do
  updIp ip fun e => e.setRef (e.ref + 1)
  pure ip

def blankDinode (type : UInt16) : Dinode := ⟨type, 0, 0, 0, 0, fun _ => 0⟩

/-- ialloc's loop, from inum on. -/
def iallocFrom (type : UInt16) : Nat → Nat → M Ip
  | 0, _ => throw "ialloc: no inodes"
  | fuel + 1, inum => do
    let s ← get
    if inum < s.sb.ninodes then do
      if (getDinode s.sb s.disk inum).type = 0 then do
        modify fun s => s.setDisk (putDinode s.sb s.disk inum (blankDinode type))
        iget inum
      else iallocFrom type fuel (inum + 1)
    else throw "ialloc: no inodes"

def ialloc (type : UInt16) : M Ip := do
  let s ← get
  iallocFrom type s.sb.ninodes 1

def iupdate (ip : Ip) : M Unit :=
  modify fun s => s.setDisk (putDinode s.sb s.disk (s.itable ip).inum (s.itable ip).dn)

/-- ilock. A process that waits for a lock of its own waits for ever. -/
def ilock (ip : Ip) : M Unit := do
  let s ← get
  if (s.itable ip).ref < 1 then throw "ilock"
  else if (s.itable ip).locked then throw "deadlock"
  else if (s.itable ip).valid then updIp ip fun e => e.setLocked true
  else do
    let dn := getDinode s.sb s.disk (s.itable ip).inum
    updIp ip fun e => { e with locked := true, valid := true, dn := dn }
    if dn.type = 0 then throw "ilock: no type" else pure ()

def iunlock (ip : Ip) : M Unit := do
  let s ← get
  if (s.itable ip).locked = false ∨ (s.itable ip).ref < 1 then throw "iunlock"
  else updIp ip fun e => e.setLocked false

def setAddr (ip : Ip) (k : Fin (nDirect + 1)) (b : Nat) : M Unit :=
  updDn ip fun dn => dn.setAddr k (UInt32.ofNat b)

/-- Entry k of addrs, with a new block if it has none. -/
def bmapAddr (ip : Ip) (k : Fin (nDirect + 1)) : M Nat := do
  let s ← get
  let addr := ((s.itable ip).dn.addrs k).toNat
  if addr = 0 then do
    let b ← balloc
    setAddr ip k b
    pure b
  else pure addr

def word (data : Block) (j : Nat) : Nat := getLE data (4 * j) 4

/-- The block of entry j of the indirect block at addr, with a new one if it has none. -/
def bmapIndirect (addr j : Nat) : M Nat := do
  let data ← bread addr
  if word data j = 0 then do
    let b ← balloc
    let data ← bread addr
    logWrite addr (putLE data (4 * j) 4 b)
    pure b
  else pure (word data j)

def bmap (ip : Ip) (bn : Nat) : M Nat :=
  if small : bn < nDirect then bmapAddr ip ⟨bn, Nat.lt_succ_of_lt small⟩
  else if bn - nDirect < nIndirect then do
    let addr ← bmapAddr ip (Fin.last nDirect)
    bmapIndirect addr (bn - nDirect)
  else throw "bmap: out of range"

/-- itrunc's loop over the direct blocks. -/
def itruncDirect (ip : Ip) : List (Fin (nDirect + 1)) → M Unit
  | [] => pure ()
  | k :: rest => do
    let s ← get
    let addr := ((s.itable ip).dn.addrs k).toNat
    if addr = 0 then itruncDirect ip rest
    else do
      bfree addr
      setAddr ip k 0
      itruncDirect ip rest

/-- itrunc's loop over the words of the indirect block at addr. -/
def itruncWords (addr : Nat) : List Nat → M Unit
  | [] => pure ()
  | j :: rest => do
    let data ← bread addr
    if word data j = 0 then itruncWords addr rest
    else do
      bfree (word data j)
      itruncWords addr rest

def directs : List (Fin (nDirect + 1)) := (List.finRange nDirect).map Fin.castSucc

/-- itrunc's part for the indirect block. -/
def itruncIndirect (ip : Ip) : M Unit := do
  let s ← get
  let addr := ((s.itable ip).dn.addrs (Fin.last nDirect)).toNat
  if addr = 0 then pure ()
  else do
    itruncWords addr (List.range nIndirect)
    bfree addr
    setAddr ip (Fin.last nDirect) 0

def itrunc (ip : Ip) : M Unit := do
  itruncDirect ip directs
  itruncIndirect ip
  updDn ip fun dn => dn.setSize 0
  iupdate ip

/-- iput's part for an inode without links, under its last reference. -/
def iputLast (ip : Ip) : M Unit := do
  let s ← get
  if (s.itable ip).locked then throw "deadlock"
  else do
    itrunc ip
    updDn ip fun dn => dn.setType 0
    iupdate ip
    updIp ip fun e => e.setValid false

def iput (ip : Ip) : M Unit := do
  let s ← get
  let e := s.itable ip
  if e.ref = 1 ∧ e.valid ∧ e.dn.nlink = 0 then do
    iputLast ip
    updIp ip fun e => e.setRef (e.ref - 1)
  else updIp ip fun e => e.setRef (e.ref - 1)

def iunlockput (ip : Ip) : M Unit := do
  iunlock ip
  iput ip

/-- Memory that either_copyin reads or either_copyout writes: its bytes, and how many of
    them come before the first one that is not mapped. -/
structure Buffer where
  byte : Nat → UInt8
  limit : Option Nat

def Buffer.copied (src : Buffer) (tot m : Nat) : Nat :=
  match src.limit with
  | none => m
  | some l => min m (l - tot)

def chunk (n tot off : Nat) : Nat := min (n - tot) (bSize - off % bSize)

/-- readi's loop: what it returns, and the bytes it has delivered. -/
def readiLoop (ip : Ip) (dst : Buffer) (n : Nat) : Nat → Nat → Nat → List UInt8 → M (Int × List UInt8)
  | 0, tot, _, out => pure (tot, out)
  | fuel + 1, tot, off, out =>
    if tot < n then do
      let b ← bmap ip (off / bSize)
      let data ← bread b
      let m := chunk n tot off
      let c := dst.copied tot m
      let out := out ++ (List.range c).map fun t => data (off % bSize + t)
      if c < m then pure (-1, out)
      else readiLoop ip dst n fuel (tot + m) (off + m) out
    else pure (tot, out)

def addU32 (a b : Nat) : Nat := (a + b) % 0x100000000

def readi (ip : Ip) (dst : Buffer) (off n : Nat) : M (Int × List UInt8) := do
  let s ← get
  let size := (s.itable ip).dn.size.toNat
  if off > size ∨ addU32 off n < off then pure (0, [])
  else do
    let n := if addU32 off n > size then size - off else n
    readiLoop ip dst n n 0 off []

/-- writei's loop: tot and off when it ends. A copy that fails leaves its first bytes in
    the buffer, which is then not logged. -/
def writeiLoop (ip : Ip) (src : Buffer) (n : Nat) : Nat → Nat → Nat → M (Nat × Nat)
  | 0, tot, off => pure (tot, off)
  | fuel + 1, tot, off =>
    if tot < n then do
      let b ← bmap ip (off / bSize)
      let data ← bread b
      let m := chunk n tot off
      let c := src.copied tot m
      logWrite b (putBytes data (off % bSize) c fun t => src.byte (tot + t))
      if c < m then pure (tot, off)
      else writeiLoop ip src n fuel (tot + m) (off + m)
    else pure (tot, off)

def writeiEnd (ip : Ip) (tot off : Nat) : M Int := do
  let s ← get
  if off > (s.itable ip).dn.size.toNat then do
    updDn ip fun dn => dn.setSize (UInt32.ofNat off)
    iupdate ip
    pure tot
  else do
    iupdate ip
    pure tot

def writei (ip : Ip) (src : Buffer) (off n : Nat) : M Int := do
  let s ← get
  if off > (s.itable ip).dn.size.toNat ∨ addU32 off n < off then pure (-1)
  else if addU32 off n > maxFile * bSize then pure (-1)
  else do
    let r ← writeiLoop ip src n n 0 off
    writeiEnd ip r.1 r.2

end Xv6Fs
