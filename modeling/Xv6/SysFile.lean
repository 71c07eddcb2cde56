import Xv6.Dirs

/- kernel/sysfile.c and kernel/file.c: the system calls on path names, and open files. A path
   argument is what argstr fetched, or none. System calls run one at a time. -/
namespace Xv6Fs
open Xv6 Bytes

abbrev nFile : Nat := 100
abbrev nDev : Nat := 10

def dot : List UInt8 := [46]
def dotdot : List UInt8 := [46, 46]

def oWrOnly : UInt32 := 0x001
def oRdWr : UInt32 := 0x002
def oCreate : UInt32 := 0x200
def oTrunc : UInt32 := 0x400

/- create. -/

def createFound (dp ip : Ip) (type : UInt16) : M (Option Ip) := do
  iunlockput dp
  ilock ip
  let s ← get
  let found := (s.itable ip).dn.type
  if type = tFile ∧ (found = tFile ∨ found = tDevice) then pure (some ip)
  else do
    iunlockput ip
    pure none

def createDots (dp ip : Ip) (type : UInt16) : M Unit := do
  let s ← get
  if type = tDir then do
    updDn dp fun dn => dn.setNlink (dn.nlink + 1)
    iupdate dp
    let r ← dirlink ip dot (s.itable ip).inum
    if r < 0 then throw "create dots"
    else do
      let r ← dirlink ip dotdot (s.itable dp).inum
      if r < 0 then throw "create dots" else pure ()
  else pure ()

def createNew (dp : Ip) (name : List UInt8) (type : UInt16) (major minor : Int16) :
    M (Option Ip) := do
  let ip ← ialloc type
  ilock ip
  updDn ip fun dn => { dn with major := major, minor := minor, nlink := 1 }
  iupdate ip
  createDots dp ip type
  let s ← get
  let r ← dirlink dp name (s.itable ip).inum
  if r < 0 then throw "create: dirlink"
  else do
    iunlockput dp
    pure (some ip)

def create (cwd : Ip) (path : List UInt8) (type : UInt16) (major minor : Int16) :
    M (Option Ip) := do
  match ← nameiparent cwd path with
  | none => pure none
  | some (dp, name) => do
    ilock dp
    match ← dirlookup dp name with
    | some (ip, _) => createFound dp ip type
    | none => createNew dp name type major minor

def sysMkdir (cwd : Ip) (path : Option (List UInt8)) : M Int := do
  match path with
  | none => pure (-1)
  | some path =>
    match ← create cwd path tDir 0 0 with
    | none => pure (-1)
    | some ip => do
      iunlockput ip
      pure 0

def sysMknod (cwd : Ip) (path : Option (List UInt8)) (major minor : Int32) : M Int := do
  match path with
  | none => pure (-1)
  | some path =>
    match ← create cwd path tDevice major.toInt16 minor.toInt16 with
    | none => pure (-1)
    | some ip => do
      iunlockput ip
      pure 0

/- sys_link. -/

def linkBad (ip : Ip) : M Int := do
  ilock ip
  updDn ip fun dn => dn.setNlink (dn.nlink - 1)
  iupdate ip
  iunlockput ip
  pure (-1)

def linkNew (cwd ip : Ip) (new : List UInt8) : M Int := do
  match ← nameiparent cwd new with
  | none => linkBad ip
  | some (dp, name) => do
    ilock dp
    let s ← get
    let r ← dirlink dp name (s.itable ip).inum
    if r < 0 then do
      iunlockput dp
      linkBad ip
    else do
      iunlockput dp
      iput ip
      pure 0

def sysLink (cwd : Ip) (old new : Option (List UInt8)) : M Int := do
  match old, new with
  | some old, some new =>
    match ← namei cwd old with
    | none => pure (-1)
    | some ip => do
      ilock ip
      let s ← get
      if (s.itable ip).dn.type = tDir then do
        iunlockput ip
        pure (-1)
      else do
        updDn ip fun dn => dn.setNlink (dn.nlink + 1)
        iupdate ip
        iunlock ip
        linkNew cwd ip new
  | _, _ => pure (-1)

/- sys_unlink. -/

def isdiremptyFrom (dp : Ip) : Nat → Nat → M Bool
  | 0, _ => pure true
  | fuel + 1, off => do
    let s ← get
    if off < (s.itable dp).dn.size.toNat then do
      let de ← readDirent dp off "isdirempty: readi"
      if de.inum ≠ 0 then pure false else isdiremptyFrom dp fuel (off + direntSize)
    else pure true

def isdirempty (dp : Ip) : M Bool := do
  let s ← get
  isdiremptyFrom dp ((s.itable dp).dn.size.toNat / direntSize) (2 * direntSize)

/-- Whether sys_unlink must leave ip alone. -/
def unlinkKeeps (ip : Ip) : M Bool := do
  let s ← get
  if (s.itable ip).dn.type = tDir then do
    let empty ← isdirempty ip
    pure (!empty)
  else pure false

/-- The parent's count, for the ".." of a removed directory. -/
def unlinkParent (dp ip : Ip) : M Unit := do
  let s ← get
  if (s.itable ip).dn.type = tDir then do
    updDn dp fun dn => dn.setNlink (dn.nlink - 1)
    iupdate dp
  else pure ()

def unlinkEntry (dp ip : Ip) (off : Nat) : M Int := do
  let r ← writei dp (kernel []) off direntSize
  if r ≠ direntSize then throw "unlink: writei"
  else do
    unlinkParent dp ip
    iunlockput dp
    updDn ip fun dn => dn.setNlink (dn.nlink - 1)
    iupdate ip
    iunlockput ip
    pure 0

def unlinkFound (dp ip : Ip) (off : Nat) : M Int := do
  ilock ip
  let s ← get
  if (s.itable ip).dn.nlink < 1 then throw "unlink: nlink < 1"
  else do
    let keep ← unlinkKeeps ip
    if keep then do
      iunlockput ip
      iunlockput dp
      pure (-1)
    else unlinkEntry dp ip off

def sysUnlink (cwd : Ip) (path : Option (List UInt8)) : M Int := do
  match path with
  | none => pure (-1)
  | some path =>
    match ← nameiparent cwd path with
    | none => pure (-1)
    | some (dp, name) => do
      ilock dp
      if namecmp name dot = 0 ∨ namecmp name dotdot = 0 then do
        iunlockput dp
        pure (-1)
      else do
        match ← dirlookup dp name with
        | none => do
          iunlockput dp
          pure (-1)
        | some (ip, off) => unlinkFound dp ip off

/- Open files and current directories. -/
inductive FdType where
  | none
  | pipe
  | inode
  | device
deriving DecidableEq

structure File where
  type : FdType
  ref : Int
  readable : Bool
  writable : Bool
  ip : Ip
  off : UInt32
  major : Int16

/-- The file system with the open files, and what each process has of them. -/
structure Sys where
  fs : Fs
  ftable : Fin nFile → File
  cwd : Fin nproc → Option Ip
  ofile : Fin nproc → Fin nofile → Option (Fin nFile)

abbrev SysM := StateT Sys (Except String)

def Sys.setFs (s : Sys) (fs : Fs) : Sys := { s with fs := fs }

def Sys.setFile (s : Sys) (f : Fin nFile) (file : File) : Sys :=
  { s with ftable := Function.update s.ftable f file }

def Sys.setCwd (s : Sys) (p : Fin nproc) (cwd : Option Ip) : Sys :=
  { s with cwd := Function.update s.cwd p cwd }

def Sys.setFd (s : Sys) (p : Fin nproc) (fd : Fin nofile) (f : Option (Fin nFile)) : Sys :=
  { s with ofile := Function.update s.ofile p (Function.update (s.ofile p) fd f) }

def inFs {A : Type} (x : M A) : SysM A := fun s => do
  let r ← x s.fs
  pure (r.1, s.setFs r.2)

def File.setRef (f : File) (ref : Int) : File := { f with ref := ref }
def File.closed (f : File) : File := { f with ref := 0, type := .none }

def filealloc : SysM (Option (Fin nFile)) := do
  let s ← get
  match (List.finRange nFile).find? fun f => (s.ftable f).ref = 0 with
  | some f => do
    modify fun s => s.setFile f ((s.ftable f).setRef 1)
    pure (some f)
  | none => pure none

def fdalloc (p : Fin nproc) (f : Fin nFile) : SysM (Option (Fin nofile)) := do
  let s ← get
  match (List.finRange nofile).find? fun fd => (s.ofile p fd).isNone with
  | some fd => do
    modify fun s => s.setFd p fd (some f)
    pure (some fd)
  | none => pure none

/-- fileclose. Pipes are not part of the file system. -/
def fileclose (f : Fin nFile) : SysM Unit := do
  let s ← get
  let ff := s.ftable f
  if ff.ref < 1 then throw "fileclose"
  else if ff.ref - 1 > 0 then modify fun s => s.setFile f (ff.setRef (ff.ref - 1))
  else do
    modify fun s => s.setFile f ff.closed
    if ff.type = .inode ∨ ff.type = .device then inFs (iput ff.ip) else pure ()

def sysClose (p : Fin nproc) (fd : Int32) : SysM Int := do
  let s ← get
  if bound : 0 ≤ fd.toInt ∧ fd.toInt.toNat < nofile then
    match s.ofile p ⟨fd.toInt.toNat, bound.2⟩ with
    | none => pure (-1)
    | some f => do
      modify fun s => s.setFd p ⟨fd.toInt.toNat, bound.2⟩ none
      fileclose f
      pure 0
  else pure (-1)

def openInode (cwd : Ip) (path : List UInt8) (omode : UInt32) : M (Option Ip) := do
  if omode &&& oCreate ≠ 0 then create cwd path tFile 0 0
  else do
    match ← namei cwd path with
    | none => pure none
    | some ip => do
      ilock ip
      let s ← get
      if (s.itable ip).dn.type = tDir ∧ omode ≠ 0 then do
        iunlockput ip
        pure none
      else pure (some ip)

def openFile (f : File) (ip : Ip) (dn : Dinode) (omode : UInt32) : File :=
  { f with
    type := if dn.type = tDevice then .device else .inode
    off := if dn.type = tDevice then f.off else 0
    major := if dn.type = tDevice then dn.major else f.major
    ip := ip
    readable := omode &&& oWrOnly = 0
    writable := omode &&& oWrOnly ≠ 0 ∨ omode &&& oRdWr ≠ 0 }

def openDone (f : Fin nFile) (fd : Fin nofile) (ip : Ip) (omode : UInt32) : SysM Int := do
  modify fun s => s.setFile f (openFile (s.ftable f) ip (s.fs.itable ip).dn omode)
  let s ← get
  if omode &&& oTrunc ≠ 0 ∧ (s.fs.itable ip).dn.type = tFile then do
    inFs (itrunc ip)
    inFs (iunlock ip)
    pure fd.val
  else do
    inFs (iunlock ip)
    pure fd.val

def openFd (p : Fin nproc) (ip : Ip) (omode : UInt32) : SysM Int := do
  match ← filealloc with
  | none => do
    inFs (iunlockput ip)
    pure (-1)
  | some f =>
    match ← fdalloc p f with
    | none => do
      fileclose f
      inFs (iunlockput ip)
      pure (-1)
    | some fd => openDone f fd ip omode

def sysOpen (p : Fin nproc) (cwd : Ip) (path : Option (List UInt8)) (omode : UInt32) :
    SysM Int := do
  match path with
  | none => pure (-1)
  | some path =>
    match ← inFs (openInode cwd path omode) with
    | none => pure (-1)
    | some ip => do
      let s ← get
      let dn := (s.fs.itable ip).dn
      if dn.type = tDevice ∧ (dn.major < 0 ∨ dn.major.toInt ≥ nDev) then do
        inFs (iunlockput ip)
        pure (-1)
      else openFd p ip omode

def chdirInode (cwd : Ip) (path : List UInt8) : M (Option Ip) := do
  match ← namei cwd path with
  | none => pure none
  | some ip => do
    ilock ip
    let s ← get
    if (s.itable ip).dn.type ≠ tDir then do
      iunlockput ip
      pure none
    else do
      iunlock ip
      iput cwd
      pure (some ip)

def sysChdir (p : Fin nproc) (cwd : Ip) (path : Option (List UInt8)) : SysM Int := do
  match path with
  | none => pure (-1)
  | some path =>
    match ← inFs (chdirInode cwd path) with
    | none => pure (-1)
    | some ip => do
      modify fun s => s.setCwd p (some ip)
      pure 0

def initproc : Fin nproc := 0

def closeAll (p : Fin nproc) : List (Fin nofile) → SysM Unit
  | [] => pure ()
  | fd :: rest => do
    let s ← get
    match s.ofile p fd with
    | none => closeAll p rest
    | some f => do
      fileclose f
      modify fun s => s.setFd p fd none
      closeAll p rest

def exit (p : Fin nproc) (cwd : Ip) : SysM Int := do
  if p = initproc then throw "init exiting"
  else do
    closeAll p (List.finRange nofile)
    inFs (iput cwd)
    modify fun s => s.setCwd p none
    pure 0

inductive Call where
  | open (path : Option (List UInt8)) (omode : UInt32)
  | mkdir (path : Option (List UInt8))
  | mknod (path : Option (List UInt8)) (major minor : Int32)
  | link (old new : Option (List UInt8))
  | unlink (path : Option (List UInt8))
  | chdir (path : Option (List UInt8))
  | close (fd : Int32)
  | exit

def Call.run (p : Fin nproc) (cwd : Ip) : Call → SysM Int
  | .open path omode => sysOpen p cwd path omode
  | .mkdir path => inFs (sysMkdir cwd path)
  | .mknod path major minor => inFs (sysMknod cwd path major minor)
  | .link old new => inFs (sysLink cwd old new)
  | .unlink path => inFs (sysUnlink cwd path)
  | .chdir path => sysChdir p cwd path
  | .close fd => sysClose p fd
  | .exit => Xv6Fs.exit p cwd

def syscall (p : Fin nproc) (call : Call) : SysM Int := do
  let s ← get
  match s.cwd p with
  | none => throw "no process"
  | some cwd => call.run p cwd

end Xv6Fs
