import Xv6.Lib.Threads
import Xv6.SysInv

/- kernel/fs.c and kernel/file.c between processes: the inode table, the inodes on the disk,
   the directories and the open files, with each critical section as one operation. T is the
   type of processes. A ledger says what a process holds: references, sleep-locks, a file
   structure that it is opening or closing, and how far its iput has come. -/
namespace Xv6Conc
open Xv6 Xv6Fs Threads

structure Ino where
  dev : Nat
  inum : Nat
  deriving DecidableEq

structure Entry (T : Type) where
  ino : Ino
  ref : Int
  valid : Bool
  holder : Option T
  dn : Dinode

structure Shared (T : Type) where
  outstanding : Nat
  entry : Ip → Entry T
  -- on the disk, as bread shows it
  disk : Ino → Dinode
  ents : Ino → List Dirent
  ftable : Fin nFile → File
  ofile : T → Fin nofile → Option (Fin nFile)
  cwd : T → Ip

inductive Op where
  | beginOp
  | endOp
  | iget (i : Ino)
  | idup (ip : Ip)
  -- ilock: its acquiresleep, and what follows
  | lock (ip : Ip)
  | load (ip : Ip)
  | unlock (ip : Ip)
  -- ip->dev with ip->inum, and the fields under the lock
  | ident (ip : Ip)
  | fields (ip : Ip)
  -- new values for fields other than the type
  | store (ip : Ip) (f : Dinode → Dinode)
  | iupdate (ip : Ip)
  -- writei, after which the inode reads as these dirents, and itrunc, with their iupdate
  | write (ip : Ip) (es : List Dirent)
  | trunc (ip : Ip)
  -- iput: its test, ip->type = 0, ip->valid = 0 with releasesleep, and the decrement
  | test (ip : Ip)
  | clearType (ip : Ip)
  | expire (ip : Ip)
  | drop (ip : Ip)
  -- one turn of ialloc's loop
  | claim (i : Ino) (type : UInt16)
  -- dirlookup's loop, dirlink's write, sys_unlink's write of a zero dirent
  | look (dp : Ip) (name : List UInt8)
  | enter (dp : Ip) (name : List UInt8) (inum : Nat)
  | clear (dp : Ip) (k : Nat)
  | isdirempty (ip : Ip)
  | getCwd
  | setCwd (ip : Ip)
  | filealloc
  | fdalloc (f : Fin nFile)
  | setFile (f : Fin nFile) (file : File)
  | fileclose (f : Fin nFile)
  | getFile (fd : Fin nofile)
  | takeFd (fd : Fin nofile)
  -- an outcome that other code decides
  | ask (what : String)
  | panic (msg : String)

@[reducible] def Ans : Op → Type
  | .iget _ | .getCwd => Ip
  | .ident _ => Ino
  | .fields _ => Dinode
  | .test _ | .claim _ _ | .isdirempty _ => Bool
  | .look _ _ => Option (Ino × Nat)
  | .filealloc | .takeFd _ => Option (Fin nFile)
  | .fdalloc _ => Option (Fin nofile)
  | .fileclose _ => Option File
  | .getFile _ => Option File
  | .ask _ => Int
  | .panic _ => Empty
  | _ => Unit

inductive Held where
  | no | locked | loaded
  deriving DecidableEq

inductive Put where
  | tested | cleared | flushed | expired
  deriving DecidableEq

structure Cell where
  refs : Nat
  held : Held
  -- fields changed since the last iupdate
  dirty : Bool
  put : Option Put

inductive FileUse where
  | alloc
  | opening (fd : Fin nofile)
  | closing
  deriving DecidableEq

structure Hold where
  ops : Nat
  cell : Ip → Cell
  file : Option (Fin nFile × FileUse)
  -- the inodes that its descriptors are known to have
  files : Fin nofile → Option Ip
  cwd : Ip

namespace Cell

def setRefs (c : Cell) (refs : Nat) : Cell := { c with refs := refs }
def setHeld (c : Cell) (held : Held) : Cell := { c with held := held }
def setDirty (c : Cell) (dirty : Bool) : Cell := { c with dirty := dirty }
def setPut (c : Cell) (put : Option Put) : Cell := { c with put := put }

end Cell

namespace Hold

def setCell (h : Hold) (ip : Ip) (c : Cell) : Hold :=
  { h with cell := Function.update h.cell ip c }

def setOps (h : Hold) (ops : Nat) : Hold := { h with ops := ops }
def setFile (h : Hold) (file : Option (Fin nFile × FileUse)) : Hold := { h with file := file }
def setCwd (h : Hold) (cwd : Ip) : Hold := { h with cwd := cwd }

def setKnown (h : Hold) (fd : Fin nofile) (ip : Option Ip) : Hold :=
  { h with files := Function.update h.files fd ip }

def addRef (h : Hold) (ip : Ip) : Hold :=
  h.setCell ip ((h.cell ip).setRefs ((h.cell ip).refs + 1))

def dropRef (h : Hold) (ip : Ip) : Hold :=
  h.setCell ip ((h.cell ip).setRefs ((h.cell ip).refs - 1))

def Calm (h : Hold) : Prop := ∀ ip, (h.cell ip).put = none

def Via (h : Hold) (ip : Ip) : Prop := ∃ fd, h.files fd = some ip

def Has (h : Hold) (ip : Ip) : Prop := 0 < (h.cell ip).refs ∨ h.Via ip

end Hold

namespace Entry
variable {T : Type}

def setRef (e : Entry T) (ref : Int) : Entry T := { e with ref := ref }
def setHolder (e : Entry T) (holder : Option T) : Entry T := { e with holder := holder }
def setDn (e : Entry T) (dn : Dinode) : Entry T := { e with dn := dn }
def readIn (e : Entry T) (dn : Dinode) : Entry T := { e with valid := true, dn := dn }
def recycle (e : Entry T) (i : Ino) : Entry T := { e with ino := i, ref := 1, valid := false }
def expire (e : Entry T) : Entry T := { e with valid := false, holder := none }

def Frees (e : Entry T) : Prop := e.ref = 1 ∧ e.valid = true ∧ e.dn.nlink = 0

instance (e : Entry T) : Decidable e.Frees := inferInstanceAs (Decidable (_ ∧ _))

end Entry

def resized (dn : Dinode) (size : UInt32) (addrs : Fin (nDirect + 1) → UInt32) : Dinode :=
  { dn with size := size, addrs := addrs }

/-- dirlookup's loop: the first dirent in use with the name, and its place. -/
def findEnt (name : List UInt8) (es : List Dirent) : Option (UInt16 × Nat) :=
  (es.zipIdx.find? fun e => e.1.inum ≠ 0 ∧ namecmp name e.1.name = 0).map fun e => (e.1.inum, e.2)

def putEnt (es : List Dirent) (de : Dirent) : List Dirent :=
  match es.findIdx? fun e => e.inum = 0 with
  | some k => es.set k de
  | none => es ++ [de]

section
variable {T : Type} [DecidableEq T]

namespace Shared

def setEntry (s : Shared T) (ip : Ip) (e : Entry T) : Shared T :=
  { s with entry := Function.update s.entry ip e }

def setDisk (s : Shared T) (i : Ino) (dn : Dinode) : Shared T :=
  { s with disk := Function.update s.disk i dn }

def setEnts (s : Shared T) (i : Ino) (es : List Dirent) : Shared T :=
  { s with ents := Function.update s.ents i es }

def put (s : Shared T) (ip : Ip) (dn : Dinode) : Shared T :=
  (s.setEntry ip ((s.entry ip).setDn dn)).setDisk (s.entry ip).ino dn

def setFile (s : Shared T) (f : Fin nFile) (file : File) : Shared T :=
  { s with ftable := Function.update s.ftable f file }

def setFd (s : Shared T) (t : T) (fd : Fin nofile) (f : Option (Fin nFile)) : Shared T :=
  { s with ofile := Function.update s.ofile t (Function.update (s.ofile t) fd f) }

def iget (s : Shared T) (i : Ino) : Option (Ip × Entry T) :=
  match (List.finRange nInode).find? fun ip => 0 < (s.entry ip).ref ∧ (s.entry ip).ino = i with
  | some ip => some (ip, (s.entry ip).setRef ((s.entry ip).ref + 1))
  | none => ((List.finRange nInode).find? fun ip => (s.entry ip).ref = 0).map fun ip =>
      (ip, (s.entry ip).recycle i)

end Shared

/-- What an operation of process t does. It waits or panics where it does nothing. -/
def exec (t : T) : (o : Op) → Shared T → Ans o → Shared T → Prop
  | .beginOp, s, _, s' => s' = { s with outstanding := s.outstanding + 1 }
  | .endOp, s, _, s' => s' = { s with outstanding := s.outstanding - 1 }
  | .iget i, s, ip, s' => ∃ e, s.iget i = some (ip, e) ∧ s' = s.setEntry ip e
  | .idup ip, s, _, s' => s' = s.setEntry ip ((s.entry ip).setRef ((s.entry ip).ref + 1))
  | .lock ip, s, _, s' => 0 < (s.entry ip).ref ∧ (s.entry ip).holder = none ∧
    s' = s.setEntry ip ((s.entry ip).setHolder (some t))
  | .load ip, s, _, s' => if (s.entry ip).valid then s' = s else
    (s.disk (s.entry ip).ino).type ≠ 0 ∧
      s' = s.setEntry ip ((s.entry ip).readIn (s.disk (s.entry ip).ino))
  | .unlock ip, s, _, s' => (s.entry ip).holder = some t ∧ 0 < (s.entry ip).ref ∧
    s' = s.setEntry ip ((s.entry ip).setHolder none)
  | .ident ip, s, i, s' => i = (s.entry ip).ino ∧ s' = s
  | .fields ip, s, dn, s' => dn = (s.entry ip).dn ∧ s' = s
  | .store ip f, s, _, s' =>
    s' = s.setEntry ip ((s.entry ip).setDn ((f (s.entry ip).dn).setType (s.entry ip).dn.type))
  | .iupdate ip, s, _, s' => s' = s.setDisk (s.entry ip).ino (s.entry ip).dn
  | .write ip es, s, _, s' => ∃ size addrs,
    s' = (s.put ip (resized (s.entry ip).dn size addrs)).setEnts (s.entry ip).ino es
  | .trunc ip, s, _, s' =>
    s' = (s.put ip (resized (s.entry ip).dn 0 fun _ => 0)).setEnts (s.entry ip).ino []
  | .test ip, s, frees, s' => if (s.entry ip).Frees then
      frees = true ∧ (s.entry ip).holder = none ∧
        s' = s.setEntry ip ((s.entry ip).setHolder (some t))
    else frees = false ∧ s' = s.setEntry ip ((s.entry ip).setRef ((s.entry ip).ref - 1))
  | .clearType ip, s, _, s' => s' = s.setEntry ip ((s.entry ip).setDn ((s.entry ip).dn.setType 0))
  | .expire ip, s, _, s' => s' = s.setEntry ip (s.entry ip).expire
  | .drop ip, s, _, s' => s' = s.setEntry ip ((s.entry ip).setRef ((s.entry ip).ref - 1))
  | .claim i type, s, free, s' => if (s.disk i).type = 0 then
      free = true ∧ s' = (s.setDisk i (blankDinode type)).setEnts i []
    else free = false ∧ s' = s
  | .look dp name, s, found, s' => (s.entry dp).dn.type = tDir ∧ s' = s ∧
    found = (findEnt name (s.ents (s.entry dp).ino)).map fun e =>
      (⟨(s.entry dp).ino.dev, e.1.toNat⟩, e.2)
  | .enter dp name inum, s, _, s' => ∃ size addrs,
    s' = (s.put dp (resized (s.entry dp).dn size addrs)).setEnts (s.entry dp).ino
      (putEnt (s.ents (s.entry dp).ino) ⟨UInt16.ofNat inum, strncpy dirSiz name⟩)
  | .clear dp k, s, _, s' => ∃ size addrs,
    s' = (s.put dp (resized (s.entry dp).dn size addrs)).setEnts (s.entry dp).ino
      ((s.ents (s.entry dp).ino).set k ⟨0, []⟩)
  | .isdirempty ip, s, empty, s' => s' = s ∧
    empty = ((s.ents (s.entry ip).ino).drop 2).all fun e => e.inum = 0
  | .getCwd, s, ip, s' => ip = s.cwd t ∧ s' = s
  | .setCwd ip, s, _, s' => s' = { s with cwd := Function.update s.cwd t ip }
  | .filealloc, s, found, s' =>
    match (List.finRange nFile).find? fun f => (s.ftable f).ref = 0 with
    | some f => found = some f ∧ s' = s.setFile f ((s.ftable f).setRef 1)
    | none => found = none ∧ s' = s
  | .fdalloc f, s, found, s' =>
    match (List.finRange nofile).find? fun fd => (s.ofile t fd).isNone with
    | some fd => found = some fd ∧ s' = s.setFd t fd (some f)
    | none => found = none ∧ s' = s
  | .setFile f file, s, _, s' => s' = s.setFile f (file.setRef (s.ftable f).ref)
  | .fileclose f, s, last, s' => 1 ≤ (s.ftable f).ref ∧
    if 0 < (s.ftable f).ref - 1 then
      last = none ∧ s' = s.setFile f ((s.ftable f).setRef ((s.ftable f).ref - 1))
    else last = some (s.ftable f) ∧ s' = s.setFile f (s.ftable f).closed
  | .getFile fd, s, file, s' => s' = s ∧ file = (s.ofile t fd).map s.ftable
  | .takeFd fd, s, f, s' => f = s.ofile t fd ∧ s' = s.setFd t fd none
  | .ask _, s, _, s' => s' = s
  | .panic _, _, _, _ => False

/-- The operations as functions, where a write leaves the size and the blocks as they are. -/
def next (t : T) : (o : Op) → Shared T → Option (Ans o × Shared T)
  | .beginOp, s => some ((), { s with outstanding := s.outstanding + 1 })
  | .endOp, s => some ((), { s with outstanding := s.outstanding - 1 })
  | .iget i, s => (s.iget i).map fun r => (r.1, s.setEntry r.1 r.2)
  | .idup ip, s => some ((), s.setEntry ip ((s.entry ip).setRef ((s.entry ip).ref + 1)))
  | .lock ip, s => if 0 < (s.entry ip).ref ∧ (s.entry ip).holder = none then
      some ((), s.setEntry ip ((s.entry ip).setHolder (some t)))
    else none
  | .load ip, s => if (s.entry ip).valid then some ((), s)
    else if (s.disk (s.entry ip).ino).type ≠ 0 then
      some ((), s.setEntry ip ((s.entry ip).readIn (s.disk (s.entry ip).ino)))
    else none
  | .unlock ip, s => if (s.entry ip).holder = some t ∧ 0 < (s.entry ip).ref then
      some ((), s.setEntry ip ((s.entry ip).setHolder none))
    else none
  | .ident ip, s => some ((s.entry ip).ino, s)
  | .fields ip, s => some ((s.entry ip).dn, s)
  | .store ip f, s => some ((),
      s.setEntry ip ((s.entry ip).setDn ((f (s.entry ip).dn).setType (s.entry ip).dn.type)))
  | .iupdate ip, s => some ((), s.setDisk (s.entry ip).ino (s.entry ip).dn)
  | .write ip es, s => some ((), (s.put ip (resized (s.entry ip).dn (s.entry ip).dn.size
      (s.entry ip).dn.addrs)).setEnts (s.entry ip).ino es)
  | .trunc ip, s => some ((),
      (s.put ip (resized (s.entry ip).dn 0 fun _ => 0)).setEnts (s.entry ip).ino [])
  | .test ip, s => if (s.entry ip).Frees then
      if (s.entry ip).holder = none then
        some (true, s.setEntry ip ((s.entry ip).setHolder (some t)))
      else none
    else some (false, s.setEntry ip ((s.entry ip).setRef ((s.entry ip).ref - 1)))
  | .clearType ip, s =>
    some ((), s.setEntry ip ((s.entry ip).setDn ((s.entry ip).dn.setType 0)))
  | .expire ip, s => some ((), s.setEntry ip (s.entry ip).expire)
  | .drop ip, s => some ((), s.setEntry ip ((s.entry ip).setRef ((s.entry ip).ref - 1)))
  | .claim i type, s => if (s.disk i).type = 0 then
      some (true, (s.setDisk i (blankDinode type)).setEnts i [])
    else some (false, s)
  | .look dp name, s => if (s.entry dp).dn.type = tDir then
      some ((findEnt name (s.ents (s.entry dp).ino)).map fun e =>
        (⟨(s.entry dp).ino.dev, e.1.toNat⟩, e.2), s)
    else none
  | .enter dp name inum, s => some ((), (s.put dp (resized (s.entry dp).dn (s.entry dp).dn.size
      (s.entry dp).dn.addrs)).setEnts (s.entry dp).ino
        (putEnt (s.ents (s.entry dp).ino) ⟨UInt16.ofNat inum, strncpy dirSiz name⟩))
  | .clear dp k, s => some ((), (s.put dp (resized (s.entry dp).dn (s.entry dp).dn.size
      (s.entry dp).dn.addrs)).setEnts (s.entry dp).ino
        ((s.ents (s.entry dp).ino).set k ⟨0, []⟩))
  | .isdirempty ip, s => some (((s.ents (s.entry ip).ino).drop 2).all fun e => e.inum = 0, s)
  | .getCwd, s => some (s.cwd t, s)
  | .setCwd ip, s => some ((), { s with cwd := Function.update s.cwd t ip })
  | .filealloc, s =>
    match (List.finRange nFile).find? fun f => (s.ftable f).ref = 0 with
    | some f => some (some f, s.setFile f ((s.ftable f).setRef 1))
    | none => some (none, s)
  | .fdalloc f, s =>
    match (List.finRange nofile).find? fun fd => (s.ofile t fd).isNone with
    | some fd => some (some fd, s.setFd t fd (some f))
    | none => some (none, s)
  | .setFile f file, s => some ((), s.setFile f (file.setRef (s.ftable f).ref))
  | .fileclose f, s => if 1 ≤ (s.ftable f).ref then
      if 0 < (s.ftable f).ref - 1 then
        some (none, s.setFile f ((s.ftable f).setRef ((s.ftable f).ref - 1)))
      else some (some (s.ftable f), s.setFile f (s.ftable f).closed)
    else none
  | .getFile fd, s => some ((s.ofile t fd).map s.ftable, s)
  | .takeFd fd, s => some (s.ofile t fd, s.setFd t fd none)
  | .ask _, s => some ((0 : Int), s)
  | .panic _, _ => none

theorem next_exec (t : T) (o : Op) (s : Shared T) (a : Ans o) (s' : Shared T)
    (computed : next t o s = some (a, s')) : exec t o s a s' := by
  cases o
  case iget i =>
    obtain ⟨⟨ip, e⟩, found, same⟩ := Option.map_eq_some_iff.mp computed
    obtain ⟨rfl, rfl⟩ := Prod.mk.inj same
    exact ⟨e, found, rfl⟩
  all_goals
    simp only [next, exec] at computed ⊢
    grind

/-- What a process that holds h may do. Between its parts an iput does nothing else. -/
def allows (h : Hold) : Op → Prop
  | .beginOp => h.Calm ∧ h.ops = 0
  | .endOp => h.Calm ∧ h.ops = 1
  | .iget _ => h.Calm
  | .idup ip | .lock ip => h.Calm ∧ h.Has ip
  | .ident ip => h.Has ip
  | .load ip => (h.cell ip).held = .locked
  | .unlock ip => h.Calm ∧ (h.cell ip).held = .loaded ∧ (h.cell ip).dirty = false
  | .fields ip | .look ip _ | .isdirempty ip | .store ip _ | .write ip _ | .enter ip _ _
  | .clear ip _ => h.Calm ∧ (h.cell ip).held = .loaded
  | .iupdate ip => (h.cell ip).held = .loaded ∧
    ((h.cell ip).put = none ∨ (h.cell ip).put = some .cleared)
  | .trunc ip => (h.cell ip).held = .loaded ∧
    ((h.cell ip).put = none ∨ (h.cell ip).put = some .tested)
  | .test ip => h.Calm ∧ 0 < (h.cell ip).refs ∧
    ((h.cell ip).held ≠ .no → 2 ≤ (h.cell ip).refs ∨ h.Via ip)
  | .clearType ip => (h.cell ip).put = some .tested
  | .expire ip => (h.cell ip).put = some .flushed
  | .drop ip => (h.cell ip).put = some .expired
  | .claim _ type => h.Calm ∧ type ≠ 0
  | .filealloc => h.Calm ∧ h.file = none
  | .fdalloc f => h.Calm ∧ h.file = some (f, .alloc)
  | .setFile f file => h.Calm ∧ (∃ fd, h.file = some (f, .opening fd)) ∧
    (file.type = .inode ∨ file.type = .device) ∧ 0 < (h.cell file.ip).refs
  | .fileclose f => h.Calm ∧ (h.file = some (f, .alloc) ∨ h.file = some (f, .closing))
  | .takeFd _ => h.Calm ∧ h.file = none ∧ ∀ ip, (h.cell ip).held = .no
  | .getFile _ => h.Calm
  | .getCwd | .setCwd _ | .ask _ | .panic _ => True

instance (h : Hold) (o : Op) : Decidable (allows h o) := by
  cases o <;> dsimp only [allows, Hold.Calm, Hold.Has, Hold.Via] <;> infer_instance

/-- What the answers tell it. -/
def fits (h : Hold) : (o : Op) → Ans o → Prop
  | .lock ip, _ => (h.cell ip).held = .no
  | .test ip, frees => frees = true → (h.cell ip).held = .no
  | .getCwd, ip => ip = h.cwd
  | .fileclose f, last => h.file = some (f, .alloc) → ∀ file : File, last = some file → file.inode = none
  | .getFile _, file => ∀ f : File, file = some f → f.ref ≤ 0 → f.type = .none
  | _, _ => True

def book (h : Hold) : (o : Op) → Ans o → Hold
  | .beginOp, _ => h.setOps (h.ops + 1)
  | .endOp, _ => h.setOps (h.ops - 1)
  | .iget _, ip => h.addRef ip
  | .idup ip, _ => h.addRef ip
  | .lock ip, _ => h.setCell ip ((h.cell ip).setHeld .locked)
  | .load ip, _ => h.setCell ip ((h.cell ip).setHeld .loaded)
  | .unlock ip, _ => h.setCell ip ((h.cell ip).setHeld .no)
  | .store ip _, _ => h.setCell ip ((h.cell ip).setDirty true)
  | .iupdate ip, _ => h.setCell ip
      { h.cell ip with dirty := false, put := (h.cell ip).put.map fun _ => .flushed }
  | .write ip _, _ | .trunc ip, _ | .enter ip _ _, _ | .clear ip _, _ =>
      h.setCell ip ((h.cell ip).setDirty false)
  | .test ip, true => h.setCell ip { h.cell ip with held := .loaded, put := some .tested }
  | .test ip, false => h.dropRef ip
  | .clearType ip, _ => h.setCell ip ((h.cell ip).setPut (some .cleared))
  | .expire ip, _ => h.setCell ip
      { h.cell ip with held := .no, dirty := false, put := some .expired }
  | .drop ip, _ => h.setCell ip { h.cell ip with refs := (h.cell ip).refs - 1, put := none }
  | .setCwd ip, _ => h.setCwd ip
  | .filealloc, found => h.setFile (found.map fun f => (f, .alloc))
  | .fdalloc f, some fd => h.setFile (some (f, .opening fd))
  | .setFile _ file, _ => match h.file with
    | some (_, .opening fd) => ((h.dropRef file.ip).setFile none).setKnown fd (some file.ip)
    | _ => h
  | .fileclose _, last => match last.bind File.inode with
    | some ip => (h.addRef ip).setFile none
    | none => h.setFile none
  | .getFile fd, file => match file.bind File.inode with
    | some ip => h.setKnown fd (some ip)
    | none => h
  | .takeFd fd, f => (h.setFile (f.map fun f => (f, .closing))).setKnown fd none
  | _, _ => h

end

end Xv6Conc
