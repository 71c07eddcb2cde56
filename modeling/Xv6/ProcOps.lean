import Mathlib.Logic.Function.Basic
import Xv6.Params
import Xv6.Lib.LockProg

/- The process operations of kernel/proc.c with their locks. Page-table code takes no lock
   but kmem.lock, any number of times, and reports success or failure; the file and inode
   reference counts are behind ftable.lock and itable.lock. -/
namespace Xv6Proc
open LockProg Prog Xv6

abbrev ProcId := Fin nproc

inductive ProcState where
  | unused | used | sleeping | runnable | running | zombie
  deriving DecidableEq

inductive Chan where
  | proc (p : ProcId)
  | other (address : Nat)
  deriving DecidableEq

inductive Lock where
  | pid | wait | kmem | ftable | itable | pr
  | proc (p : ProcId)
  | other (address : Nat)
  deriving DecidableEq

/-- struct trapframe: the words sp and a0, and the 34 others. -/
structure Trapframe where
  sp : UInt64
  a0 : UInt64
  rest : Fin 34 → UInt64

structure Proc where
  state : ProcState
  chan : Option Chan
  killed : Bool
  xstate : Int32
  pid : Int32
  parent : Option ProcId
  sz : Nat
  pagetable : Option Nat
  trapframe : Option Trapframe
  ofile : Fin nofile → Option Nat
  cwd : Option Nat
  name : String
  youAThread : Bool
  threadCount : Int32

structure Table where
  proc : ProcId → Proc
  nextpid : Int32
  initproc : ProcId

def Table.set (t : Table) (p : ProcId) (f : Proc → Proc) : Table :=
  { t with proc := Function.update t.proc p (f (t.proc p)) }

abbrev K := Prog Lock ProcId Table

def setProc (p : ProcId) (f : Proc → Proc) : K Unit := update fun t => t.set p f

def procs : List ProcId := List.finRange nproc

def myproc (p : ProcId) : K ProcId := pushOff (popOff (ret p))

def uartputcSync : K Unit := pushOff (popOff (ret ()))

def putAll : List Char → K Unit
  | [] => pure ()
  | _ :: cs => do
    uartputcSync
    putAll cs

def printf (text : String) : K Unit := do
  acquire .pr
  putAll text.toList
  release .pr

def kalloc : K Nat := do
  acquire .kmem
  let r ← choice "kalloc"
  release .kmem
  pure r

def kfree : K Unit := do
  acquire .kmem
  release .kmem

def kmemRounds : Nat → K Unit
  | 0 => pure ()
  | n + 1 => do
    kfree
    kmemRounds n

def procPagetable : K Nat := do
  let n ← choice "rounds"
  kmemRounds n
  choice "proc_pagetable"

def procFreepagetable : K Unit := do
  let n ← choice "rounds"
  kmemRounds n

def uvmcopy : K Bool := do
  let n ← choice "rounds"
  kmemRounds n
  let r ← choice "uvmcopy"
  pure (r ≠ 0)

def filedup : K Unit := do
  acquire .ftable
  release .ftable

def idup : K Unit := do
  acquire .itable
  release .itable

def allocpid : K Int32 := do
  acquire .pid
  let t ← peek
  update fun t => { t with nextpid := t.nextpid + 1 }
  release .pid
  pure t.nextpid

def freeproc (p : ProcId) : K Unit := do
  let t ← peek
  onlyIf (t.proc p).trapframe.isSome kfree
  setProc p fun q => { q with trapframe := none }
  onlyIf (t.proc p).pagetable.isSome procFreepagetable
  setProc p fun q => { q with
    pagetable := none, sz := 0, pid := 0, parent := none, name := "", chan := none,
    killed := false, xstate := 0, state := .unused }

def junkTrapframe : Trapframe := ⟨0x0505050505050505, 0x0505050505050505, fun _ => 0x0505050505050505⟩

def allocprocFound (p : ProcId) : K (Option ProcId) := do
  let pid ← allocpid
  setProc p fun q => { q with pid := pid, state := .used }
  let frame ← kalloc
  if frame = 0 then do
    setProc p fun q => { q with trapframe := none }
    freeproc p
    release (.proc p)
    pure none
  else do
    setProc p fun q => { q with trapframe := some junkTrapframe }
    let pagetable ← procPagetable
    if pagetable = 0 then do
      setProc p fun q => { q with pagetable := none }
      freeproc p
      release (.proc p)
      pure none
    else do
      setProc p fun q => { q with pagetable := some pagetable }
      spawn p (pure (some p))

def allocproc : List ProcId → K (Option ProcId)
  | [] => pure none
  | p :: rest => do
    acquire (.proc p)
    let t ← peek
    if (t.proc p).state = .unused then allocprocFound p
    else do
      release (.proc p)
      allocproc rest

def dupFiles (p np : ProcId) : List (Fin nofile) → K Unit
  | [] => pure ()
  | i :: rest => do
    let t ← peek
    onlyIf ((t.proc p).ofile i).isSome do
      filedup
      setProc np fun q => { q with ofile := Function.update q.ofile i ((t.proc p).ofile i) }
    dupFiles p np rest

def fork (p : ProcId) : K Int32 := do
  let p ← myproc p
  match ← allocproc procs with
  | none => pure (-1)
  | some np =>
    if (← uvmcopy) = false then do
      freeproc np
      release (.proc np)
      pure (-1)
    else do
      let t ← peek
      setProc np fun q => { q with
        sz := (t.proc p).sz, youAThread := false, threadCount := 0,
        trapframe := (t.proc p).trapframe.map fun tf => { tf with a0 := 0 } }
      dupFiles p np (List.finRange nofile)
      idup
      setProc np fun q => { q with cwd := (t.proc p).cwd, name := (t.proc p).name }
      let t ← peek
      release (.proc np)
      acquire .wait
      setProc np fun q => { q with parent := some p }
      release .wait
      acquire (.proc np)
      setProc np fun q => { q with state := .runnable }
      release (.proc np)
      pure (t.proc np).pid

def cloneFound (p np : ProcId) (stack : UInt64) (size : Int32) : K Int32 := do
  let t ← peek
  onlyIf (!(t.proc p).youAThread) (setProc p fun q => { q with threadCount := q.threadCount + 1 })
  let t ← peek
  setProc np fun q => { q with
    pagetable := (t.proc 0).pagetable, sz := (t.proc p).sz, parent := some p, youAThread := true,
    trapframe := (t.proc p).trapframe.map fun tf => { tf with
      sp := stack - ((t.proc p).threadCount * size).toInt64.toUInt64, a0 := 0 } }
  dupFiles p np (List.finRange nofile)
  idup
  setProc np fun q => { q with cwd := (t.proc p).cwd, name := (t.proc p).name }
  let t ← peek
  setProc np fun q => { q with state := .runnable }
  printf "made it to end of clone\n"
  pure (t.proc np).pid

def clone (p : ProcId) (stack : UInt64) (size : Int32) : K Int32 := do
  printf "made it to clone\n"
  let p ← myproc p
  match ← allocproc procs with
  | none => pure (-1)
  | some np => mark "clone" (cloneFound p np stack size)

def sleep (p : ProcId) (chan : Chan) (lk : Lock) : K Unit := do
  let p ← myproc p
  acquire (.proc p)
  release lk
  setProc p fun q => { q with chan := some chan, state := .sleeping }
  sched (pure ())
  setProc p fun q => { q with chan := none }
  release (.proc p)
  acquire lk

/-- wakeup by a CPU whose proc is p; `none` on a CPU that runs no process. -/
def wakeup (p : Option ProcId) (chan : Option Chan) : List ProcId → K Unit
  | [] => pure ()
  | q :: rest => do
    pushOff (popOff (pure ()))
    onlyIf (some q ≠ p) do
      acquire (.proc q)
      let t ← peek
      onlyIf ((t.proc q).state = .sleeping ∧ (t.proc q).chan = chan)
        (setProc q fun r => { r with state := .runnable })
      release (.proc q)
    wakeup p chan rest

def kill (pid : Int32) : List ProcId → K Int32
  | [] => pure (-1)
  | p :: rest => do
    acquire (.proc p)
    let t ← peek
    if (t.proc p).pid = pid then do
      setProc p fun q => { q with
        killed := true, state := if q.state = .sleeping then .runnable else q.state }
      release (.proc p)
      pure 0
    else do
      release (.proc p)
      kill pid rest

def yield (p : ProcId) : K Unit := do
  let p ← myproc p
  acquire (.proc p)
  setProc p fun q => { q with state := .runnable }
  sched (pure ())
  release (.proc p)

def waitScan (p : ProcId) (addr : UInt64) (havekids : Bool) : List ProcId → K (Int32 ⊕ Bool)
  | [] => pure (.inr havekids)
  | np :: rest => do
    let t ← peek
    if (t.proc np).parent = some p then do
      acquire (.proc np)
      let t ← peek
      if (t.proc np).state = .zombie then do
        let copied ← choice "copyout"
        if addr ≠ 0 ∧ copied = 0 then do
          release (.proc np)
          release .wait
          pure (.inl (-1))
        else do
          freeproc np
          release (.proc np)
          release .wait
          pure (.inl (t.proc np).pid)
      else do
        release (.proc np)
        waitScan p addr true rest
    else waitScan p addr havekids rest

def waitLoop (p : ProcId) (addr : UInt64) : Nat → K Int32
  | 0 => more
  | turns + 1 => do
    match ← waitScan p addr false procs with
    | .inl result => pure result
    | .inr havekids => do
      let t ← peek
      if (!havekids || (t.proc p).killed) ∧ (t.proc p).youAThread = false then do
        release .wait
        pure (-1)
      else do
        sleep p (.proc p) .wait
        waitLoop p addr turns

def wait (p : ProcId) (addr : UInt64) (turns : Nat) : K Int32 := do
  let p ← myproc p
  acquire .wait
  waitLoop p addr turns

def reparent (p : ProcId) : List ProcId → K Unit
  | [] => pure ()
  | pp :: rest => do
    let t ← peek
    onlyIf ((t.proc pp).parent = some p) do
      setProc pp fun q => { q with parent := some t.initproc }
      wakeup (some p) (some (.proc t.initproc)) procs
    reparent p rest

def exit (p : ProcId) (status : Int32) : K Unit := do
  let p ← myproc p
  let t ← peek
  if p = t.initproc then halt "init exiting"
  else do
    setProc p fun q => { q with ofile := fun _ => none, cwd := none }
    acquire .wait
    reparent p procs
    let t ← peek
    wakeup (some p) ((t.proc p).parent.map .proc) procs
    acquire (.proc p)
    setProc p fun q => { q with xstate := status, state := .zombie }
    release .wait
    sched (halt "zombie exit")

/-- The first code of a new process, under the lock its scheduler took. -/
def forkret (p : ProcId) : K Unit := do
  let p ← myproc p
  release (.proc p)

end Xv6Proc
