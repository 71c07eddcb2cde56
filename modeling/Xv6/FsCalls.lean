import Xv6.InodeOps

/- The functions of kernel/fs.c, kernel/sysfile.c, kernel/file.c and kernel/exec.c on inodes, as
   programs of the operations on the shared state. ninodes is the super block's. -/
namespace Xv6Conc
open Xv6 Xv6Fs Threads Prog

abbrev P := Prog Op Ans

abbrev act (o : Op) : P (Ans o) := perform o

def panic {A : Type} (msg : String) : P A := do
  let impossible ← act (.panic msg)
  (impossible : Empty).elim

def ask (what : String) : P Int := act (.ask what)

def ilock (ip : Ip) : P Unit := do
  act (.lock ip)
  act (.load ip)

def iput (ip : Ip) : P Unit := do
  let frees ← act (.test ip)
  match frees with
  | true => do
    act (.trunc ip)
    act (.clearType ip)
    act (.iupdate ip)
    act (.expire ip)
    act (.drop ip)
  | false => pure ()

def iunlockput (ip : Ip) : P Unit := do
  act (.unlock ip)
  iput ip

def iallocFrom (dev : Nat) (type : UInt16) : Nat → Nat → P Ip
  | 0, _ => panic "ialloc: no inodes"
  | fuel + 1, inum => do
    let free ← act (.claim ⟨dev, inum⟩ type)
    match free with
    | true => act (.iget ⟨dev, inum⟩)
    | false => iallocFrom dev type fuel (inum + 1)

def ialloc (ninodes dev : Nat) (type : UInt16) : P Ip := iallocFrom dev type (ninodes - 1) 1

def dirlookup (dp : Ip) (name : List UInt8) : P (Option (Ip × Nat)) := do
  match ← act (.look dp name) with
  | none => pure none
  | some (i, k) => do
    let ip ← act (.iget i)
    pure (some (ip, k))

def dirlink (dp : Ip) (name : List UInt8) (inum : Nat) : P Int := do
  match ← dirlookup dp name with
  | some (ip, _) => do
    iput ip
    pure (-1)
  | none => do
    act (.enter dp name inum)
    pure 0

def namexFrom (parent : Bool) : Nat → List UInt8 → Ip → P (Option (Ip × List UInt8))
  | 0, _, _ => pure none
  | fuel + 1, path, ip =>
    match skipelem path with
    | none =>
      if parent then do
        iput ip
        pure none
      else pure (some (ip, []))
    | some (name, rest) => do
      ilock ip
      let dn ← act (.fields ip)
      if dn.type ≠ tDir then do
        iunlockput ip
        pure none
      else if parent ∧ rest = [] then do
        act (.unlock ip)
        pure (some (ip, name))
      else do
        match ← dirlookup ip name with
        | none => do
          iunlockput ip
          pure none
        | some (found, _) => do
          iunlockput ip
          namexFrom parent fuel rest found

abbrev rootDev : Nat := 1

def namexStart (path : List UInt8) : P Ip :=
  if path.head? = some slash then act (.iget ⟨rootDev, rootIno⟩)
  else do
    let cwd ← act .getCwd
    act (.idup cwd)
    pure cwd

/-- namex. Every element makes the path shorter, so that the loop ends before its fuel does. -/
def namex (path : List UInt8) (parent : Bool) : P (Option (Ip × List UInt8)) := do
  let ip ← namexStart path
  namexFrom parent (path.length + 1) path ip

def namei (path : List UInt8) : P (Option Ip) := do
  match ← namex path false with
  | some (ip, _) => pure (some ip)
  | none => pure none

def nameiparent (path : List UInt8) : P (Option (Ip × List UInt8)) := namex path true

/- create. -/

def createFound (dp ip : Ip) (type : UInt16) : P (Option Ip) := do
  iunlockput dp
  ilock ip
  let dn ← act (.fields ip)
  if type = tFile ∧ (dn.type = tFile ∨ dn.type = tDevice) then pure (some ip)
  else do
    iunlockput ip
    pure none

def createDots (dp ip : Ip) (type : UInt16) : P Unit :=
  if type = tDir then do
    act (.store dp fun dn => dn.setNlink (dn.nlink + 1))
    act (.iupdate dp)
    let i ← act (.ident ip)
    let r ← dirlink ip dot i.inum
    if r < 0 then panic "create dots"
    else do
      let d ← act (.ident dp)
      let r ← dirlink ip dotdot d.inum
      if r < 0 then panic "create dots" else pure ()
  else pure ()

def createNew (ninodes : Nat) (dp : Ip) (name : List UInt8) (type : UInt16) (major minor : Int16) :
    P (Option Ip) := do
  let d ← act (.ident dp)
  let ip ← ialloc ninodes d.dev type
  ilock ip
  act (.store ip fun dn => { dn with major := major, minor := minor, nlink := 1 })
  act (.iupdate ip)
  createDots dp ip type
  let i ← act (.ident ip)
  let r ← dirlink dp name i.inum
  if r < 0 then panic "create: dirlink"
  else do
    iunlockput dp
    pure (some ip)

def create (ninodes : Nat) (path : List UInt8) (type : UInt16) (major minor : Int16) :
    P (Option Ip) := do
  match ← nameiparent path with
  | none => pure none
  | some (dp, name) => do
    ilock dp
    match ← dirlookup dp name with
    | some (ip, _) => createFound dp ip type
    | none => createNew ninodes dp name type major minor

/-- The end of every path through a call that is inside a transaction. -/
def endWith (r : Int) : P Int := do
  act .endOp
  pure r

def sysMkdir (ninodes : Nat) (path : Option (List UInt8)) : P Int := do
  act .beginOp
  match path with
  | none => endWith (-1)
  | some path =>
    match ← create ninodes path tDir 0 0 with
    | none => endWith (-1)
    | some ip => do
      iunlockput ip
      endWith 0

def sysMknod (ninodes : Nat) (path : Option (List UInt8)) (major minor : Int32) : P Int := do
  act .beginOp
  match path with
  | none => endWith (-1)
  | some path =>
    match ← create ninodes path tDevice major.toInt16 minor.toInt16 with
    | none => endWith (-1)
    | some ip => do
      iunlockput ip
      endWith 0

/- sys_link. -/

def linkBad (ip : Ip) : P Int := do
  ilock ip
  act (.store ip fun dn => dn.setNlink (dn.nlink - 1))
  act (.iupdate ip)
  iunlockput ip
  endWith (-1)

def linkNew (ip : Ip) (new : List UInt8) : P Int := do
  match ← nameiparent new with
  | none => linkBad ip
  | some (dp, name) => do
    ilock dp
    let d ← act (.ident dp)
    let i ← act (.ident ip)
    if d.dev ≠ i.dev then do
      iunlockput dp
      linkBad ip
    else do
      let r ← dirlink dp name i.inum
      if r < 0 then do
        iunlockput dp
        linkBad ip
      else do
        iunlockput dp
        iput ip
        endWith 0

def sysLink (old new : Option (List UInt8)) : P Int :=
  match old, new with
  | some old, some new => do
    act .beginOp
    match ← namei old with
    | none => endWith (-1)
    | some ip => do
      ilock ip
      let dn ← act (.fields ip)
      if dn.type = tDir then do
        iunlockput ip
        endWith (-1)
      else do
        act (.store ip fun dn => dn.setNlink (dn.nlink + 1))
        act (.iupdate ip)
        act (.unlock ip)
        linkNew ip new
  | _, _ => pure (-1)

/- sys_unlink. -/

def unlinkBad (dp : Ip) : P Int := do
  iunlockput dp
  endWith (-1)

def unlinkKeeps (ip : Ip) : P Bool := do
  let dn ← act (.fields ip)
  if dn.type = tDir then do
    let empty ← act (.isdirempty ip)
    pure (!empty)
  else pure false

def unlinkParent (dp ip : Ip) : P Unit := do
  let dn ← act (.fields ip)
  if dn.type = tDir then do
    act (.store dp fun dn => dn.setNlink (dn.nlink - 1))
    act (.iupdate dp)
  else pure ()

def unlinkEntry (dp ip : Ip) (k : Nat) : P Int := do
  act (.clear dp k)
  unlinkParent dp ip
  iunlockput dp
  act (.store ip fun dn => dn.setNlink (dn.nlink - 1))
  act (.iupdate ip)
  iunlockput ip
  endWith 0

def unlinkFound (dp ip : Ip) (k : Nat) : P Int := do
  ilock ip
  let dn ← act (.fields ip)
  if dn.nlink < 1 then panic "unlink: nlink < 1"
  else do
    let keep ← unlinkKeeps ip
    if keep then do
      iunlockput ip
      unlinkBad dp
    else unlinkEntry dp ip k

def sysUnlink (path : Option (List UInt8)) : P Int :=
  match path with
  | none => pure (-1)
  | some path => do
    act .beginOp
    match ← nameiparent path with
    | none => endWith (-1)
    | some (dp, name) => do
      ilock dp
      if namecmp name dot = 0 ∨ namecmp name dotdot = 0 then unlinkBad dp
      else do
        match ← dirlookup dp name with
        | none => unlinkBad dp
        | some (ip, k) => unlinkFound dp ip k

/- sys_open. -/

def openInode (ninodes : Nat) (path : List UInt8) (omode : UInt32) : P (Option Ip) :=
  if omode &&& oCreate ≠ 0 then create ninodes path tFile 0 0
  else do
    match ← namei path with
    | none => pure none
    | some ip => do
      ilock ip
      let dn ← act (.fields ip)
      if dn.type = tDir ∧ omode ≠ 0 then do
        iunlockput ip
        pure none
      else pure (some ip)

def openBad (ip : Ip) : P Int := do
  iunlockput ip
  endWith (-1)

/-- The file of an open inode. The fields that sys_open does not set are of no use. -/
def newFile (ip : Ip) (dn : Dinode) (omode : UInt32) : File :=
  openFile ⟨.none, 1, false, false, ip, 0, 0⟩ ip dn omode

def openDone (f : Fin nFile) (fd : Fin nofile) (ip : Ip) (dn : Dinode) (omode : UInt32) : P Int := do
  act (.setFile f (newFile ip dn omode))
  if omode &&& oTrunc ≠ 0 ∧ dn.type = tFile then do
    act (.trunc ip)
    act (.unlock ip)
    endWith fd.val
  else do
    act (.unlock ip)
    endWith fd.val

def openFd (ip : Ip) (dn : Dinode) (omode : UInt32) : P Int := do
  match ← act .filealloc with
  | none => openBad ip
  | some f =>
    match ← act (.fdalloc f) with
    | none => do
      let _ ← act (.fileclose f)
      openBad ip
    | some fd => openDone f fd ip dn omode

def sysOpen (ninodes : Nat) (path : Option (List UInt8)) (omode : UInt32) : P Int :=
  match path with
  | none => pure (-1)
  | some path => do
    act .beginOp
    match ← openInode ninodes path omode with
    | none => endWith (-1)
    | some ip => do
      let dn ← act (.fields ip)
      if dn.type = tDevice ∧ (dn.major < 0 ∨ dn.major.toInt ≥ nDev) then openBad ip
      else openFd ip dn omode

def sysChdir (path : Option (List UInt8)) : P Int := do
  act .beginOp
  match path with
  | none => endWith (-1)
  | some path =>
    match ← namei path with
    | none => endWith (-1)
    | some ip => do
      ilock ip
      let dn ← act (.fields ip)
      if dn.type ≠ tDir then do
        iunlockput ip
        endWith (-1)
      else do
        act (.unlock ip)
        let cwd ← act .getCwd
        iput cwd
        act .endOp
        act (.setCwd ip)
        pure 0

/-- exec. What it reads and the memory it gets decide whether it goes to bad. -/
def sysExec (path : Option (List UInt8)) : P Int :=
  match path with
  | none => pure (-1)
  | some path => do
    act .beginOp
    match ← namei path with
    | none => endWith (-1)
    | some ip => do
      ilock ip
      let bad ← ask "load program into memory"
      if bad ≠ 0 then do
        iunlockput ip
        endWith (-1)
      else do
        iunlockput ip
        act .endOp
        -- ip is 0 at bad from here on
        let bad ← ask "user stack"
        if bad ≠ 0 then pure (-1) else pure 0

/- kernel/file.c. -/

/-- fileclose. A pipe's end is closed without the file system. -/
def fileclose (f : Fin nFile) : P Unit := do
  let last ← act (.fileclose f)
  match (last : Option File).bind File.inode with
  | none => pure ()
  | some ip => do
    act .beginOp
    iput ip
    act .endOp

def sysClose (fd : Option (Fin nofile)) : P Int :=
  match fd with
  | none => pure (-1)
  | some fd => do
    match ← act (.takeFd fd) with
    | none => pure (-1)
    | some f => do
      fileclose f
      pure 0

def fileread (file : File) : P Int :=
  if file.readable = false then pure (-1)
  else match file.type with
    | .inode => do
      ilock file.ip
      act (.unlock file.ip)
      ask "readi"
    | .pipe | .device => ask "read"
    | .none => panic "fileread"

/-- filewrite's loop. The dirents are what the inode reads as after each writei. -/
def filewriteFrom (ip : Ip) : List (List Dirent) → P Int
  | [] => pure 0
  | es :: rest => do
    act .beginOp
    ilock ip
    act (.write ip es)
    act (.unlock ip)
    act .endOp
    let short ← ask "writei"
    if short ≠ 0 then pure (-1) else filewriteFrom ip rest

def filewrite (file : File) (data : List (List Dirent)) : P Int :=
  if file.writable = false then pure (-1)
  else match file.type with
    | .inode => filewriteFrom file.ip data
    | .pipe | .device => ask "write"
    | .none => panic "filewrite"

def onFile (fd : Option (Fin nofile)) (f : File → P Int) : P Int :=
  match fd with
  | none => pure (-1)
  | some fd => do
    match ← act (.getFile fd) with
    | none => pure (-1)
    | some file => f file

/-- A call and its arguments, as argstr and argfd fetch them. -/
inductive FsCall where
  | open (path : Option (List UInt8)) (omode : UInt32)
  | mkdir (path : Option (List UInt8))
  | mknod (path : Option (List UInt8)) (major minor : Int32)
  | link (old new : Option (List UInt8))
  | unlink (path : Option (List UInt8))
  | chdir (path : Option (List UInt8))
  | exec (path : Option (List UInt8))
  | read (fd : Option (Fin nofile))
  | write (fd : Option (Fin nofile)) (data : List (List Dirent))
  | close (fd : Option (Fin nofile))

def FsCall.code (ninodes : Nat) : FsCall → P Int
  | .open path omode => sysOpen ninodes path omode
  | .mkdir path => sysMkdir ninodes path
  | .mknod path major minor => sysMknod ninodes path major minor
  | .link old new => sysLink old new
  | .unlink path => sysUnlink path
  | .chdir path => sysChdir path
  | .exec path => sysExec path
  | .read fd => onFile fd fileread
  | .write fd data => onFile fd fun file => filewrite file data
  | .close fd => sysClose fd

def FsCall.run (ninodes : Nat) (call : FsCall) : P Unit := do
  let _ ← call.code ninodes
  pure ()

end Xv6Conc
