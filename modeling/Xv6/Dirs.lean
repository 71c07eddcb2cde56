import Xv6.Inodes

/- kernel/fs.c: directories and path names, with the string functions they use. A string is
   the list of its bytes; past its end it reads as zeros. -/
namespace Xv6Fs
open Xv6 Bytes

abbrev dirSiz : Nat := 14
abbrev direntSize : Nat := 16

def strncmp : Nat → List UInt8 → List UInt8 → Int
  | 0, _, _ => 0
  | n + 1, p, q =>
    if p.headD 0 ≠ 0 ∧ p.headD 0 = q.headD 0 then strncmp n p.tail q.tail
    else (p.headD 0).toNat - (q.headD 0).toNat

def strncpy : Nat → List UInt8 → List UInt8
  | 0, _ => []
  | n + 1, t => if t.headD 0 = 0 then List.replicate (n + 1) 0 else t.headD 0 :: strncpy n t.tail

def namecmp (s t : List UInt8) : Int := strncmp dirSiz s t

structure Dirent where
  inum : UInt16
  name : List UInt8

def Dirent.ofBytes (data : List UInt8) : Dirent :=
  ⟨UInt16.ofNat ((data.getD 0 0).toNat + 256 * (data.getD 1 0).toNat), data.drop 2⟩

def Dirent.bytes (de : Dirent) : List UInt8 :=
  leByte de.inum.toNat 0 :: leByte de.inum.toNat 1 :: de.name

/-- A kernel address, where these bytes are. -/
def kernel (data : List UInt8) : Buffer := ⟨fun k => data.getD k 0, none⟩

def readDirent (dp : Ip) (off : Nat) (msg : String) : M Dirent := do
  let r ← readi dp (kernel []) off direntSize
  if r.1 ≠ direntSize then throw msg else pure (Dirent.ofBytes r.2)

/-- dirlookup's loop, from off on: the entry's inode and its offset. -/
def dirlookupFrom (dp : Ip) (name : List UInt8) : Nat → Nat → M (Option (Ip × Nat))
  | 0, _ => pure none
  | fuel + 1, off => do
    let s ← get
    if off < (s.itable dp).dn.size.toNat then do
      let de ← readDirent dp off "dirlookup read"
      if de.inum = 0 then dirlookupFrom dp name fuel (off + direntSize)
      else if namecmp name de.name = 0 then do
        let ip ← iget de.inum.toNat
        pure (some (ip, off))
      else dirlookupFrom dp name fuel (off + direntSize)
    else pure none

def dirlookup (dp : Ip) (name : List UInt8) : M (Option (Ip × Nat)) := do
  let s ← get
  if (s.itable dp).dn.type ≠ tDir then throw "dirlookup not DIR"
  else dirlookupFrom dp name ((s.itable dp).dn.size.toNat / direntSize + 1) 0

/-- dirlink's loop: the offset of the first empty dirent, or the end. -/
def emptyFrom (dp : Ip) : Nat → Nat → M Nat
  | 0, off => pure off
  | fuel + 1, off => do
    let s ← get
    if off < (s.itable dp).dn.size.toNat then do
      let de ← readDirent dp off "dirlink read"
      if de.inum = 0 then pure off else emptyFrom dp fuel (off + direntSize)
    else pure off

def dirlinkNew (dp : Ip) (name : List UInt8) (inum : Nat) : M Int := do
  let s ← get
  let off ← emptyFrom dp ((s.itable dp).dn.size.toNat / direntSize + 1) 0
  let de : Dirent := ⟨UInt16.ofNat inum, strncpy dirSiz name⟩
  let r ← writei dp (kernel de.bytes) off direntSize
  if r ≠ direntSize then throw "dirlink" else pure 0

def dirlink (dp : Ip) (name : List UInt8) (inum : Nat) : M Int := do
  match ← dirlookup dp name with
  | some (ip, _) => do
    iput ip
    pure (-1)
  | none => dirlinkNew dp name inum

abbrev slash : UInt8 := 47

/-- skipelem: the next element, cut to the room in name, and the path after it. -/
def skipelem (path : List UInt8) : Option (List UInt8 × List UInt8) :=
  match path.dropWhile (· = slash) with
  | [] => none
  | rest => some ((rest.takeWhile (· ≠ slash)).take dirSiz,
      (rest.dropWhile (· ≠ slash)).dropWhile (· = slash))

def namexFrom (parent : Bool) : Nat → List UInt8 → Ip → M (Option (Ip × List UInt8))
  | 0, _, _ => pure none
  | fuel + 1, path, ip =>
    match skipelem path with
    | none =>
      if parent then do
        iput ip
        pure none
      else pure (some (ip, []))
    | some (name, rest) => do
      ilock ip
      let s ← get
      if (s.itable ip).dn.type ≠ tDir then do
        iunlockput ip
        pure none
      else if parent ∧ rest = [] then do
        iunlock ip
        pure (some (ip, name))
      else do
        match ← dirlookup ip name with
        | none => do
          iunlockput ip
          pure none
        | some (next, _) => do
          iunlockput ip
          namexFrom parent fuel rest next

def namexStart (cwd : Ip) (path : List UInt8) : M Ip :=
  if path.head? = some slash then iget rootIno else idup cwd

def namex (cwd : Ip) (path : List UInt8) (parent : Bool) : M (Option (Ip × List UInt8)) := do
  let ip ← namexStart cwd path
  namexFrom parent (path.length + 1) path ip

def namei (cwd : Ip) (path : List UInt8) : M (Option Ip) := do
  match ← namex cwd path false with
  | some (ip, _) => pure (some ip)
  | none => pure none

def nameiparent (cwd : Ip) (path : List UInt8) : M (Option (Ip × List UInt8)) :=
  namex cwd path true

theorem skipelem_shorter {path name rest : List UInt8} (found : skipelem path = some (name, rest)) :
    rest.length < path.length := by
  unfold skipelem at found
  split at found
  · cases found
  rename_i tail nonempty
  obtain ⟨_, rfl⟩ := Prod.mk.inj (Option.some.inj found)
  cases head : path.dropWhile (· = slash) with
  | nil => exact absurd head nonempty
  | cons c cs =>
    have first : c ≠ slash := by
      have stopped := List.head?_dropWhile_not (fun x : UInt8 => decide (x = slash)) path
      rw [head] at stopped
      simpa using stopped
    have whole : (c :: cs).length ≤ path.length := by
      rw [← head]
      exact (List.dropWhile_suffix _).length_le
    have tail : (cs.dropWhile (· ≠ slash)).length ≤ cs.length := (List.dropWhile_suffix _).length_le
    have last : ((cs.dropWhile (· ≠ slash)).dropWhile (· = slash)).length ≤
        (cs.dropWhile (· ≠ slash)).length := (List.dropWhile_suffix _).length_le
    rw [List.dropWhile_cons_of_pos (by simpa using first)]
    simp only [List.length_cons] at whole
    omega

end Xv6Fs
