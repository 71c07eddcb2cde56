import Xv6.BufCache

/- kernel/bio.c with kernel/log.c: buffers with their contents, the disk, and the transactions
   of the log. A ledger says what a process has of the buffers, and how far its commit is. -/
namespace Xv6Store
open Xv6 Xv6Bio Threads Prog

/-- struct log's fields that initlog sets. -/
structure Area where
  dev : Nat
  start : Nat
  size : Nat

/-- The cache, the disk and the log. Two fields are not the program's: what each block was
    given last, and how many of the logged blocks install_trans has unpinned. -/
structure Store (T D : Type) where
  cache : Cache T D
  disk : Nat → D
  outstanding : Nat
  committing : Bool
  lh : List Nat
  given : Nat → Nat → D
  unpinned : Nat

inductive Op (D : Type) where
  -- bget up to its acquiresleep, the acquiresleep, and the rest of bread
  | bget (dev blockno : Nat)
  | acquiresleep (b : Buf)
  | readIn (b : Buf)
  -- new contents of a buffer, and the memmoves of write_log and install_trans
  | modify (b : Buf) (f : D → D)
  | toLog (tail : Nat) (dst src : Buf)
  | toHome (tail : Nat) (dst src : Buf)
  | bwrite (b : Buf)
  -- brelse: releasesleep and the rest
  | releasesleep (b : Buf)
  | brelse (b : Buf)
  | bunpin (b : Buf)
  | logWrite (b : Buf)
  | beginOp
  -- end_op before and after its commit
  | endOp
  | endCommit
  | getLh
  | clearLh

@[reducible] def Ans {D : Type} : Op D → Type
  | .bget _ _ => Buf
  | .endOp => Bool
  | .getLh => List Nat
  | _ => Unit

namespace Store
variable {T D : Type}

def buf (s : Store T D) (b : Buf) : BufState T D := s.cache.buf b

def setCache (s : Store T D) (cache : Cache T D) : Store T D := { s with cache := cache }

def setBuf (s : Store T D) (b : Buf) (x : BufState T D) : Store T D := s.setCache (s.cache.setBuf b x)

def give (s : Store T D) (b : Buf) (data : D) : Store T D :=
  { s.setBuf b ((s.buf b).setData data) with
    given := Function.update s.given (s.buf b).dev
      (Function.update (s.given (s.buf b).dev) (s.buf b).blockno data) }

def setDisk (s : Store T D) (blockno : Nat) (data : D) : Store T D :=
  { s with disk := Function.update s.disk blockno data }

def setOutstanding (s : Store T D) (n : Nat) : Store T D := { s with outstanding := n }
def setCommitting (s : Store T D) (committing : Bool) : Store T D := { s with committing := committing }
def setLh (s : Store T D) (lh : List Nat) (unpinned : Nat) : Store T D :=
  { s with lh := lh, unpinned := unpinned }

end Store

section
variable {T D : Type} [DecidableEq T]

/-- An operation of process t. It waits or panics where there is no result. The disk driver
    looks at the block number only. -/
def next (area : Area) (t : T) : (o : Op D) → Store T D → Option (Ans o × Store T D)
  | .bget dev blockno, s => (bget s.cache dev blockno).map fun r => (r.1, s.setCache r.2)
  | .acquiresleep b, s => if (s.buf b).holder.isNone then
      some ((), s.setBuf b ((s.buf b).setHolder (some t)))
    else none
  | .readIn b, s => if (s.buf b).valid then some ((), s)
    else some ((), s.setBuf b ((s.buf b).readIn (s.disk (s.buf b).blockno)))
  | .modify b f, s => some ((), s.give b (f (s.buf b).data))
  | .toLog _ dst src, s | .toHome _ dst src, s => some ((), s.give dst (s.buf src).data)
  | .bwrite b, s => if (s.buf b).holder = some t then
      some ((), s.setDisk (s.buf b).blockno (s.buf b).data)
    else none
  | .releasesleep b, s => if (s.buf b).holder = some t then
      some ((), s.setBuf b ((s.buf b).setHolder none))
    else none
  | .brelse b, s => some ((), s.setCache (brelse s.cache b))
  | .bunpin b, s => some ((), (s.setCache (bunpin s.cache b)).setLh s.lh (s.unpinned + 1))
  | .logWrite b, s =>
    if logSize ≤ s.lh.length ∨ area.size ≤ s.lh.length + 1 then none
    else if s.outstanding < 1 then none
    else if (s.buf b).blockno ∈ s.lh then some ((), s)
    else some ((), (s.setCache (bpin s.cache b)).setLh (s.lh ++ [(s.buf b).blockno]) s.unpinned)
  | .beginOp, s =>
    if s.committing ∨ logSize < s.lh.length + (s.outstanding + 1) * maxOpBlocks then none
    else some ((), s.setOutstanding (s.outstanding + 1))
  | .endOp, s => if s.committing then none
    else if s.outstanding - 1 = 0 then
      some (true, (s.setOutstanding (s.outstanding - 1)).setCommitting true)
    else some (false, s.setOutstanding (s.outstanding - 1))
  | .endCommit, s => some ((), s.setCommitting false)
  | .getLh, s => some (s.lh, s)
  | .clearLh, s => some ((), s.setLh [] 0)

/-- What a process has of a buffer that it has locked: the block it asked for, and whether the
    contents are there, are new since the last log_write or bwrite, and are on the disk. -/
structure Use where
  blockno : Nat
  ready : Bool
  dirty : Bool
  home : Bool
deriving DecidableEq

@[ext] structure Ledger where
  ops : Nat
  wait : Option (Buf × Nat)
  held : Buf → Option Use
  free : Option Buf
  -- in a commit, how many blocks are unpinned, what log.lh is, and how many are in the log
  commit : Option Nat
  lh : Option (List Nat)
  copied : Nat

namespace Ledger

def setOps (l : Ledger) (ops : Nat) : Ledger := { l with ops := ops }
def setWait (l : Ledger) (wait : Option (Buf × Nat)) : Ledger := { l with wait := wait }
def setFree (l : Ledger) (free : Option Buf) : Ledger := { l with free := free }
def setCommit (l : Ledger) (commit : Option Nat) : Ledger := { l with commit := commit }
def setLh (l : Ledger) (lh : Option (List Nat)) : Ledger := { l with lh := lh }
def setCopied (l : Ledger) (copied : Nat) : Ledger := { l with copied := copied }
def setHeld (l : Ledger) (b : Buf) (use : Option Use) : Ledger :=
  { l with held := Function.update l.held b use }

def Reads (l : Ledger) (b : Buf) (blockno : Nat) : Prop :=
  ∃ use, l.held b = some use ∧ use.ready = true ∧ use.blockno = blockno

def Pairs (area : Area) (l : Ledger) (tail : Nat) (inLog home : Buf) : Prop :=
  l.commit ≠ none ∧ ∃ lh n, l.lh = some lh ∧ lh[tail]? = some n ∧ l.Reads home n ∧
    l.Reads inLog (area.start + tail + 1)

end Ledger

def allows (area : Area) (l : Ledger) : Op D → Prop
  | .bget dev _ => l.wait = none ∧ dev = area.dev
  | .acquiresleep b => ∃ n, l.wait = some (b, n)
  | .readIn b => l.held b ≠ none
  | .modify b _ | .bwrite b | .logWrite b => ∃ use, l.held b = some use ∧ use.ready = true
  | .toLog tail dst src => tail = l.copied ∧ l.Pairs area tail dst src
  | .toHome tail dst src => tail < l.copied ∧ l.Pairs area tail src dst
  | .releasesleep b => l.free = none ∧ ∃ use, l.held b = some use ∧ use.dirty = false
  | .brelse b => l.free = some b
  | .bunpin b => ∃ i lh use, l.commit = some i ∧ l.lh = some lh ∧ l.held b = some use ∧
    use.ready = true ∧ use.home = true ∧ lh[i]? = some use.blockno
  | .beginOp => True
  | .endOp => 0 < l.ops ∧ l.commit = none
  | .endCommit => l.commit = some 0
  | .getLh => l.commit ≠ none
  | .clearLh => ∃ lh, l.lh = some lh ∧ l.commit = some lh.length

def fits (l : Ledger) : (o : Op D) → Ans o → Prop
  | .acquiresleep b, _ => l.held b = none
  | .getLh, lh => (lh : List Nat).length ≤ logSize ∧ ∀ known, l.lh = some known → lh = known
  | _, _ => True

def book (l : Ledger) : (o : Op D) → Ans o → Ledger
  | .bget _ n, b => l.setWait (some (b, n))
  | .acquiresleep b, _ => match l.wait with
    | some (_, n) => (l.setWait none).setHeld b (some ⟨n, false, false, false⟩)
    | none => l
  | .readIn b, _ => l.setHeld b ((l.held b).map fun use => { use with ready := true })
  | .modify b _, _ | .toHome _ b _, _ =>
    l.setHeld b ((l.held b).map fun use => { use with dirty := true, home := false })
  | .toLog _ b _, _ => (l.setHeld b ((l.held b).map fun use =>
      { use with dirty := true, home := false })).setCopied (l.copied + 1)
  | .bwrite b, _ =>
    l.setHeld b ((l.held b).map fun use => { use with dirty := false, home := true })
  | .logWrite b, _ => l.setHeld b ((l.held b).map fun use => { use with dirty := false })
  | .releasesleep b, _ => (l.setHeld b none).setFree (some b)
  | .brelse _, _ => l.setFree none
  | .bunpin _, _ => l.setCommit (l.commit.map (· + 1))
  | .beginOp, _ => l.setOps (l.ops + 1)
  | .endOp, true => (((l.setOps (l.ops - 1)).setCommit (some 0)).setLh none).setCopied 0
  | .endOp, false => l.setOps (l.ops - 1)
  | .endCommit, _ => (l.setCommit none).setLh none
  | .getLh, lh => l.setLh (some lh)
  | .clearLh, _ => ((l.setCommit (some 0)).setLh (some [])).setCopied 0

def storeRules (area : Area) : Rules T (Op D) Ans (Store T D) Ledger where
  exec := fun t o s a s' => next area t o s = some (a, s')
  allows := fun _ o l => allows area l o
  fits := fun _ o l a => fits l o a
  book := fun _ o l a => book l o a

end

/- The programs. putHead is what write_head puts into the header block. -/

abbrev P (D : Type) := Prog (Op D) Ans

abbrev storeWp {T A : Type} [DecidableEq T] (D : Type) (area : Area) (t : T) (code : P D A) (l : Ledger)
    (post : A → Ledger → Prop) : Prop :=
  wp (storeRules area) t code l post

section
variable {D : Type}

abbrev act (o : Op D) : P D (Ans o) := perform o

def bread (dev blockno : Nat) : P D Buf := do
  let b ← act (.bget dev blockno)
  act (.acquiresleep b)
  act (.readIn b)
  pure b

def brelse (b : Buf) : P D Unit := do
  act (.releasesleep b)
  act (.brelse b)

def installTransFrom (area : Area) : Nat → Nat → P D Unit
  | 0, _ => pure ()
  | fuel + 1, tail => do
    let lh ← act .getLh
    match (lh : List Nat)[tail]? with
    | none => pure ()
    | some block => do
      let lbuf ← bread area.dev (area.start + tail + 1)
      let dbuf ← bread area.dev block
      act (.toHome tail dbuf lbuf)
      act (.bwrite dbuf)
      act (.bunpin dbuf)
      brelse lbuf
      brelse dbuf
      installTransFrom area fuel (tail + 1)

/-- The log has at most logSize blocks, so that the loops end before their fuel does. -/
def installTrans (area : Area) : P D Unit := installTransFrom area (logSize + 1) 0

def writeLogFrom (area : Area) : Nat → Nat → P D Unit
  | 0, _ => pure ()
  | fuel + 1, tail => do
    let lh ← act .getLh
    match (lh : List Nat)[tail]? with
    | none => pure ()
    | some block => do
      let dst ← bread area.dev (area.start + tail + 1)
      let src ← bread area.dev block
      act (.toLog tail dst src)
      act (.bwrite dst)
      brelse src
      brelse dst
      writeLogFrom area fuel (tail + 1)

def writeLog (area : Area) : P D Unit := writeLogFrom area (logSize + 1) 0

def writeHead (area : Area) (putHead : List Nat → D → D) : P D Unit := do
  let b ← bread area.dev area.start
  let lh ← act .getLh
  act (.modify b (putHead lh))
  act (.bwrite b)
  brelse b

def commit (area : Area) (putHead : List Nat → D → D) : P D Unit := do
  let lh ← act .getLh
  if 0 < (lh : List Nat).length then do
    writeLog area
    writeHead area putHead
    installTrans area
    act .clearLh
    writeHead area putHead
  else pure ()

def endOp (area : Area) (putHead : List Nat → D → D) : P D Unit := do
  let doCommit ← act .endOp
  match doCommit with
  | true => do
    commit area putHead
    act .endCommit
  | false => pure ()

/-- What processes do with buffers, and the transactions around it. -/
inductive Call (D : Type) where
  | bread (dev blockno : Nat)
  | modify (b : Buf) (f : D → D)
  | logWrite (b : Buf)
  | bwrite (b : Buf)
  | brelse (b : Buf)
  | beginOp
  | endOp

def Call.code (area : Area) (putHead : List Nat → D → D) : Call D → P D Unit
  | .bread dev blockno => do
    let _ ← Xv6Store.bread dev blockno
    pure ()
  | .modify b f => act (.modify b f)
  | .logWrite b => act (.logWrite b)
  | .bwrite b => act (.bwrite b)
  | .brelse b => Xv6Store.brelse b
  | .beginOp => act .beginOp
  | .endOp => Xv6Store.endOp area putHead

/-- The interface rule: only the holder uses a buffer, and a modified one goes to log_write or
    bwrite before brelse; end_op ends an operation of its process. -/
def Call.Obeys (l : Ledger) : Call D → Prop
  | .bread _ _ | .beginOp => True
  | .modify b _ | .logWrite b | .bwrite b => l.held b ≠ none
  | .brelse b => ∃ use, l.held b = some use ∧ use.dirty = false
  | .endOp => 0 < l.ops

instance (l : Ledger) (what : Call D) : Decidable (what.Obeys l) :=
  match what with
  | .bread _ _ | .beginOp => .isTrue trivial
  | .modify b _ | .logWrite b | .bwrite b => inferInstanceAs (Decidable (l.held b ≠ none))
  | .brelse b => decidable_of_iff ((l.held b).any (fun use => !use.dirty) = true)
      (by simp [Call.Obeys, Option.any_eq_true])
  | .endOp => inferInstanceAs (Decidable (0 < l.ops))

def Call.OnDevice (dev : Nat) : Call D → Prop
  | .bread dev' _ => dev' = dev
  | _ => True

instance (dev : Nat) (what : Call D) : Decidable (what.OnDevice dev) :=
  match what with
  | .bread dev' _ => inferInstanceAs (Decidable (dev' = dev))
  | .modify _ _ | .logWrite _ | .bwrite _ | .brelse _ | .beginOp | .endOp => .isTrue trivial

end

end Xv6Store
