import Xv6.ProcOps
import Xv6.Vm

/- kernel/proc.c and kernel/exec.c over the process table and the physical pages, one call at a
   time. The name and the directory of a process are left out. What the file system, the user's
   memory and kalloc answer is an argument of the call. A process between the calls is in user
   mode, or in the sleep of wait. -/
namespace Xv6Table
open Xv6 Xv6Vm
open Xv6Proc (ProcState Trapframe junkTrapframe)

/-- regs is the content of the trapframe page. -/
structure Proc (n N : Nat) where
  state : ProcState
  chan : Option (Fin n)
  killed : Bool
  xstate : Int32
  pid : Int32
  parent : Option (Fin n)
  sz : Nat
  pagetable : Option (Fin N)
  trapframe : Option (Fin N)
  regs : Trapframe
  ofile : Fin nofile → Option Nat
  youAThread : Bool
  threadCount : Int32

structure State (n N : Nat) where
  vm : Vm N
  proc : Fin n → Proc n N
  nextpid : Int32

section
variable {n N : Nat} {A : Type}

def State.set (s : State n N) (p : Fin n) (f : Proc n N → Proc n N) : State n N :=
  { s with proc := Function.update s.proc p (f (s.proc p)) }

def State.setVm (s : State n N) (vm : Vm N) : State n N := { s with vm := vm }

abbrev K (n N : Nat) := StateT (State n N) (Except String)

def onVm (x : M N A) : K n N A := fun s =>
  match x s.vm with
  | .ok (a, vm) => .ok (a, s.setVm vm)
  | .error msg => .error msg

def setProc (p : Fin n) (f : Proc n N → Proc n N) : K n N Unit := modify fun s => s.set p f

/-- A page-table pointer that is followed; at 0 the kernel faults. -/
def followed : Option (Fin N) → K n N (Fin N)
  | some pg => pure pg
  | none => throw "kerneltrap"

def freeTrapframe : Option (Fin N) → K n N Unit
  | some pg => onVm (kfree pg)
  | none => pure ()

def freePagetable (sz : Nat) : Option (Fin N) → K n N Unit
  | some root => onVm (procFreepagetable root sz)
  | none => pure ()

namespace Proc

/- The assignments of the code to the fields of a process. -/

def freed (q : Proc n N) : Proc n N := { q with
  trapframe := none, pagetable := none, sz := 0, pid := 0, parent := none, chan := none,
  killed := false, xstate := 0, state := .unused }

def named (pid : Int32) (q : Proc n N) : Proc n N := { q with pid := pid, state := .used }

def noFrame (q : Proc n N) : Proc n N := { q with trapframe := none }

def newFrame (frame : Fin N) (q : Proc n N) : Proc n N :=
  { q with trapframe := some frame, regs := junkTrapframe }

def setTable (table : Option (Fin N)) (q : Proc n N) : Proc n N := { q with pagetable := table }

def setSize (sz : Nat) (q : Proc n N) : Proc n N := { q with sz := sz }

def setParent (parent : Option (Fin n)) (q : Proc n N) : Proc n N := { q with parent := parent }

def setState (state : ProcState) (q : Proc n N) : Proc n N := { q with state := state }

def setChan (chan : Option (Fin n)) (q : Proc n N) : Proc n N := { q with chan := chan }

def setFiles (ofile : Fin nofile → Option Nat) (q : Proc n N) : Proc n N := { q with ofile := ofile }

def setRegs (regs : Trapframe) (q : Proc n N) : Proc n N := { q with regs := regs }

def dupFiles (files : Fin nofile → Option Nat) (q : Proc n N) : Proc n N :=
  { q with ofile := fun i => if (files i).isSome then files i else q.ofile i }

def notThread (q : Proc n N) : Proc n N := { q with youAThread := false, threadCount := 0 }

def isThread (q : Proc n N) : Proc n N := { q with youAThread := true }

/-- `if(p->youAThread == 0) p->threadCount++`. -/
def countThread (q : Proc n N) : Proc n N :=
  if q.youAThread = false then { q with threadCount := q.threadCount + 1 } else q

def kill (q : Proc n N) : Proc n N :=
  { q with killed := true, state := if q.state = .sleeping then .runnable else q.state }

def dies (status : Int32) (q : Proc n N) : Proc n N := { q with xstate := status, state := .zombie }

def sleeps (chan : Fin n) (q : Proc n N) : Proc n N := { q with chan := some chan, state := .sleeping }

def forked (p : Fin n) (parent q : Proc n N) : Proc n N :=
  (q.setSize parent.sz).notThread.setRegs { parent.regs with a0 := 0 }
    |>.dupFiles parent.ofile |>.setParent (some p) |>.setState .runnable

def cloned (p : Fin n) (first parent : Proc n N) (stack : UInt64) (size : Int32) (q : Proc n N) : Proc n N :=
  ((q.setTable first.pagetable).setSize parent.sz).setParent (some p)
    |>.isThread
    |>.setRegs { parent.regs with sp := stack - (parent.threadCount * size).toInt64.toUInt64, a0 := 0 }
    |>.dupFiles parent.ofile |>.setState .runnable

end Proc

def freeproc (p : Fin n) : K n N Unit := do
  let s ← get
  freeTrapframe (s.proc p).trapframe
  freePagetable (s.proc p).sz (s.proc p).pagetable
  setProc p Proc.freed

def allocpid : K n N Int32 := do
  let s ← get
  set { s with nextpid := s.nextpid + 1 }
  pure s.nextpid

def allocprocFound (p : Fin n) : K n N (Option (Fin n)) := do
  let pid ← allocpid
  setProc p (Proc.named pid)
  match ← onVm kalloc with
  | none => do
    setProc p Proc.noFrame
    freeproc p
    pure none
  | some frame => do
    setProc p (Proc.newFrame frame)
    match ← onVm (procPagetable frame) with
    | none => do
      setProc p (Proc.setTable none)
      freeproc p
      pure none
    | some root => do
      setProc p (Proc.setTable (some root))
      pure (some p)

def allocproc : List (Fin n) → K n N (Option (Fin n))
  | [] => pure none
  | p :: rest => do
    let s ← get
    if (s.proc p).state = .unused then allocprocFound p else allocproc rest

def forkFound (p np : Fin n) : K n N Int32 := do
  let s ← get
  let old ← followed (s.proc p).pagetable
  let new ← followed (s.proc np).pagetable
  if ← onVm (uvmcopy old new (s.proc p).sz) then do
    setProc np (Proc.forked p (s.proc p))
    pure (s.proc np).pid
  else do
    freeproc np
    pure (-1)

def fork (p : Fin n) : K n N Int32 := do
  match ← allocproc (List.finRange n) with
  | none => pure (-1)
  | some np => forkFound p np

section
variable [NeZero n]

def cloneFound (p np : Fin n) (stack : UInt64) (size : Int32) : K n N Int32 := do
  setProc p Proc.countThread
  let s ← get
  setProc np (Proc.cloned p (s.proc 0) (s.proc p) stack size)
  pure (s.proc np).pid

def clone (p : Fin n) (stack : UInt64) (size : Int32) : K n N Int32 := do
  match ← allocproc (List.finRange n) with
  | none => pure (-1)
  | some np => cloneFound p np stack size

/-- The user's register a1, one of the 34 other words. -/
def a1 (regs : Trapframe) : UInt64 := regs.rest 13

/-- sys_clone. argptr assigns to its own parameter, so the stack that is passed on is what the
    local variable held. -/
def sysClone (p : Fin n) (junk : UInt64) : K n N Int32 := do
  let s ← get
  clone p junk (a1 (s.proc p).regs).toUInt32.toInt32

end

def growproc (p : Fin n) (k : Int32) : K n N Int32 := do
  let s ← get
  let sz := UInt32.ofNat (s.proc p).sz
  if 0 < k then do
    let root ← followed (s.proc p).pagetable
    let grown ← onVm (uvmalloc root sz.toNat (sz + k.toUInt32).toNat)
    if UInt32.ofNat grown = 0 then pure (-1)
    else do
      setProc p (Proc.setSize (UInt32.ofNat grown).toNat)
      pure 0
  else if k < 0 then do
    let root ← followed (s.proc p).pagetable
    let shrunk ← onVm (uvmdealloc root sz.toNat (sz + k.toUInt32).toNat)
    setProc p (Proc.setSize (UInt32.ofNat shrunk).toNat)
    pure 0
  else do
    setProc p (Proc.setSize sz.toNat)
    pure 0

def sysSbrk (p : Fin n) (k : Int32) : K n N Int32 := do
  let s ← get
  if (← growproc p k) < 0 then pure (-1) else pure (UInt32.ofNat (s.proc p).sz).toInt32

/-- A program header; `reads` and `loads` tell whether readi and loadseg succeed. -/
structure Segment where
  reads : Bool
  load : Bool
  vaddr : UInt64
  filesz : UInt64
  memsz : UInt64
  loads : Bool

/-- What exec finds at the path. `found`: namei succeeds and the ELF header is one. `pushes`: the
    arguments fit on the stack, which then ends at sp. -/
structure Program where
  found : Bool
  segments : List Segment
  pushes : Bool
  entry : UInt64
  sp : UInt64

/-- exec's loop over the program headers: the size, and whether it did not go to bad. -/
def execLoop (root : Fin N) (sz : Nat) : List Segment → M N (Nat × Bool)
  | [] => pure (sz, true)
  | ph :: rest =>
    if !ph.reads then pure (sz, false)
    else if !ph.load then execLoop root sz rest
    else if ph.memsz < ph.filesz then pure (sz, false)
    else if ph.vaddr + ph.memsz < ph.vaddr then pure (sz, false)
    else do
      let sz1 ← uvmalloc root sz (ph.vaddr + ph.memsz).toNat
      if sz1 = 0 then pure (sz, false)
      else if ph.vaddr.toNat % PGSIZE ≠ 0 then pure (sz1, false)
      else if !ph.loads then pure (sz1, false)
      else execLoop root sz1 rest

/-- exec up to its commit: the new image and its size, or none after bad. -/
def execImage (frame : Fin N) (file : Program) : M N (Option (Fin N × Nat)) := do
  match ← procPagetable frame with
  | none => pure none
  | some root => do
    let (sz, ok) ← execLoop root 0 file.segments
    if !ok then do
      procFreepagetable root sz
      pure none
    else do
      let sz1 ← uvmalloc root (pgroundup sz) (pgroundup sz + 2 * PGSIZE)
      if sz1 = 0 then do
        procFreepagetable root (pgroundup sz)
        pure none
      else do
        uvmclear root (sz1 - 2 * PGSIZE)
        if !file.pushes then do
          procFreepagetable root sz1
          pure none
        else pure (some (root, sz1))

/-- The registers that exec sets: a1, epc and sp. -/
def execRegs (file : Program) (regs : Trapframe) : Trapframe :=
  { regs with sp := file.sp, rest := Function.update (Function.update regs.rest 13 file.sp) 3 file.entry }

def exec (p : Fin n) (file : Program) (argc : Nat) : K n N Int32 := do
  if !file.found then pure (-1)
  else do
    let s ← get
    let frame ← followed (s.proc p).trapframe
    match ← onVm (execImage frame file) with
    | none => pure (-1)
    | some (root, sz) => do
      let old ← followed (s.proc p).pagetable
      setProc p fun q => ((q.setTable (some root)).setSize sz).setRegs (execRegs file q.regs)
      onVm (procFreepagetable old (s.proc p).sz)
      pure (Int32.ofNat argc)

def maxArg : Nat := 32

/-- sys_exec's loop over the user's argv, from index i on: the pages it has taken, and whether it
    ended well. An argument tells whether fetchstr succeeds, `ends` whether the word after them is
    fetched and 0. -/
def fetchArgs (ends : Bool) (i : Nat) : List Bool → M N (List (Fin N) × Bool)
  | [] => pure ([], decide (i < maxArg) && ends)
  | fetched :: rest =>
    if i ≥ maxArg then pure ([], false)
    else do
      match ← kalloc with
      | none => pure ([], false)
      | some pg =>
        if !fetched then pure ([pg], false)
        else do
          let (pages, ok) ← fetchArgs ends (i + 1) rest
          pure (pg :: pages, ok)

def freeArgs : List (Fin N) → M N Unit
  | [] => pure ()
  | pg :: rest => do
    kfree pg
    freeArgs rest

def sysExec (p : Fin n) (args : List Bool) (ends : Bool) (file : Program) : K n N Int32 := do
  let (pages, ok) ← onVm (fetchArgs ends 0 args)
  if ok then do
    let ret ← exec p file pages.length
    onVm (freeArgs pages)
    pure ret
  else do
    onVm (freeArgs pages)
    pure (-1)

def wakeup (p : Fin n) (chan : Option (Fin n)) : K n N Unit :=
  modify fun s => { s with
    proc := fun q =>
      if q ≠ p ∧ (s.proc q).state = .sleeping ∧ (s.proc q).chan = chan then
        (s.proc q).setState .runnable
      else s.proc q }

def kill (pid : Int32) : List (Fin n) → K n N Int32
  | [] => pure (-1)
  | p :: rest => do
    let s ← get
    if (s.proc p).pid = pid then do
      setProc p Proc.kill
      pure 0
    else kill pid rest

section
variable [NeZero n]

def reparent (p : Fin n) : List (Fin n) → K n N Unit
  | [] => pure ()
  | pp :: rest => do
    let s ← get
    if (s.proc pp).parent = some p then do
      setProc pp (Proc.setParent (some 0))
      wakeup p (some 0)
      reparent p rest
    else reparent p rest

def exit (p : Fin n) (status : Int32) : K n N Unit := do
  if p = 0 then throw "init exiting"
  setProc p (Proc.setFiles fun _ => none)
  reparent p (List.finRange n)
  let s ← get
  wakeup p (s.proc p).parent
  setProc p (Proc.dies status)

end

/-- wait's scan of the table: the value it returns, or whether it saw a child. -/
def waitScan (p : Fin n) (addr : UInt64) (copied : Bool) (havekids : Bool) :
    List (Fin n) → K n N (Int32 ⊕ Bool)
  | [] => pure (.inr havekids)
  | np :: rest => do
    let s ← get
    if (s.proc np).parent = some p then do
      if (s.proc np).state = .zombie then
        if addr ≠ 0 ∧ copied = false then pure (.inl (-1))
        else do
          freeproc np
          pure (.inl (s.proc np).pid)
      else waitScan p addr copied true rest
    else waitScan p addr copied havekids rest

/-- One pass of wait's loop: the value it returns, or none when it sleeps. -/
def waitPass (p : Fin n) (addr : UInt64) (copied : Bool) : K n N (Option Int32) := do
  match ← waitScan p addr copied false (List.finRange n) with
  | .inl ret => pure (some ret)
  | .inr havekids => do
    let s ← get
    if (!havekids || (s.proc p).killed) ∧ (s.proc p).youAThread = false then pure (some (-1))
    else do
      setProc p (Proc.sleeps p)
      pure none

def wait (p : Fin n) (addr : UInt64) (copied : Bool) : K n N (Option Int32) := do
  setProc p (Proc.setChan none)
  waitPass p addr copied

def userinit : K n N Bool := do
  match ← allocproc (List.finRange n) with
  | none => throw "kerneltrap"
  | some p => do
    let s ← get
    let root ← followed (s.proc p).pagetable
    let mapped ← onVm (uvminit root)
    setProc p fun q => ((q.setSize PGSIZE).setState .runnable).setRegs
      { q.regs with sp := UInt64.ofNat PGSIZE, rest := Function.update q.regs.rest 3 0 }
    pure mapped

/- What happens to the table, one event at a time. -/

inductive Call where
  | fork
  | clone (junk : UInt64)
  | exec (args : List Bool) (ends : Bool) (file : Program)
  | sbrk (k : Int32)
  | exit (status : Int32)
  | wait (addr : UInt64) (copied : Bool)
  | kill (pid : Int32)
  -- user code, and the calls that change the open files
  | user (regs : Trapframe) (ofile : Fin nofile → Option Nat)
  | yield
  -- the scheduler runs the process
  | schedule

/-- An event of p; luck is for its calls of kalloc. -/
structure Event (n : Nat) where
  p : Fin n
  call : Call
  luck : List Bool

def discard (x : K n N A) : K n N Unit := do
  let _ ← x
  pure ()

def Call.code [NeZero n] (p : Fin n) : Call → K n N Unit
  | .fork => discard (Xv6Table.fork p)
  | .clone junk => discard (sysClone p junk)
  | .exec args ends file => discard (sysExec p args ends file)
  | .sbrk k => discard (sysSbrk p k)
  | .exit status => Xv6Table.exit p status
  | .wait addr copied => discard (Xv6Table.wait p addr copied)
  | .kill pid => discard (Xv6Table.kill pid (List.finRange n))
  | .user regs ofile => setProc p fun q => (q.setRegs regs).setFiles ofile
  | .yield => setProc p (Proc.setState .runnable)
  | .schedule => setProc p (Proc.setState .running)

/-- Whether the process can do it: one that has slept in wait goes on with wait. -/
def Call.able (q : Proc n N) : Call → Bool
  | .schedule => decide (q.state = .runnable)
  | .wait _ _ => decide (q.state = .running)
  | _ => decide (q.state = .running) && q.chan.isNone

def State.setLuck (s : State n N) (luck : List Bool) : State n N := s.setVm (s.vm.setLuck luck)

def next [NeZero n] (s : State n N) (e : Event n) : Option (State n N) :=
  if e.call.able (s.proc e.p) then
    match e.call.code e.p (s.setLuck e.luck) with
    | .ok (_, t) => some t
    | .error _ => none
  else none

def Proc.zero : Proc n N :=
  ⟨.unused, none, false, 0, 0, none, 0, none, none, junkTrapframe, fun _ => none, false, 0⟩

/-- The table and the pages when main calls userinit: the kernel has taken some pages for its page
    table and the kernel stacks. -/
structure Fresh (kernel : List (Fin N)) (s : State n N) : Prop where
  proc : s.proc = fun _ => Proc.zero
  nextpid : s.nextpid = 1
  distinct : kernel.Nodup
  nodup : s.vm.freelist.Nodup
  free : ∀ pg, pg ∈ s.vm.freelist ↔ pg ∉ kernel
  once : s.vm.twice = false

/-- The machine has booted: userinit has found the pages it needs. -/
def Booted (kernel : List (Fin N)) (s : State n N) : Prop :=
  ∃ s₀ : State n N, Fresh kernel s₀ ∧ userinit s₀ = .ok (true, s)

end

end Xv6Table
