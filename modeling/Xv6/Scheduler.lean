import Xv6.ProcOps
import Xv6.Spinlock

/- CPUs and kernel threads: scheduler and sched of kernel/proc.c, and the traps that bring a
   process into the kernel. p->lock is carried across the switch. Each step is one command
   of one CPU; a CPU that spins on a lock takes no step. -/
namespace Xv6Proc
open LockProg Prog Xv6 Xv6Spinlock

inductive Op where
  | fork
  | clone (stack : UInt64) (size : Int32)
  | wait (addr : UInt64) (turns : Nat)
  | kill (pid : Int32)
  | wakeup (chan : Option Chan)
  | yield
  | sleep (chan : Chan) (lk : Lock)

def Op.code (p : ProcId) : Op → K Int32
  | .fork => Xv6Proc.fork p
  | .clone stack size => Xv6Proc.clone p stack size
  | .wait addr turns => Xv6Proc.wait p addr turns
  | .kill pid => Xv6Proc.kill pid procs
  | .wakeup chan => do
    Xv6Proc.wakeup (some p) chan procs
    pure 0
  | .yield => do
    Xv6Proc.yield p
    pure 0
  | .sleep chan lk => do
    Xv6Proc.sleep p chan lk
    pure 0

/-- What brings a process into the kernel: a timer interrupt or a system call. sleep and
    wakeup are called there under some lock of the caller's. -/
inductive Trap where
  | timer
  | fork
  | clone (stack : UInt64) (size : Int32)
  | wait (addr : UInt64) (turns : Nat)
  | kill (pid : Int32)
  | wakeup (chan : Option Chan) (lk : Nat)
  | sleep (chan : Chan) (lk : Nat)
  | exit (status : Int32)

def Trap.body (p : ProcId) : Trap → K Unit
  | .timer => Xv6Proc.yield p
  | .fork => do
    let _ ← Xv6Proc.fork p
    pure ()
  | .clone stack size => do
    let _ ← Xv6Proc.clone p stack size
    pure ()
  | .wait addr turns => do
    let _ ← Xv6Proc.wait p addr turns
    pure ()
  | .kill pid => do
    let _ ← Xv6Proc.kill pid procs
    pure ()
  | .wakeup chan lk => do
    acquire (.other lk)
    Xv6Proc.wakeup (some p) chan procs
    release (.other lk)
  | .sleep chan lk => do
    acquire (.other lk)
    Xv6Proc.sleep p chan (.other lk)
    release (.other lk)
  | .exit status => Xv6Proc.exit p status

def Trap.isTimer : Trap → Bool
  | .timer => true
  | _ => false

/-- usertrap: the trap turns interrupts off, and a system call turns them on again. -/
def usertrap (p : ProcId) (why : Trap) : K Unit := do
  setIntr false (pure ())
  let p ← myproc p
  onlyIf (!why.isTimer) (setIntr true (pure ()))
  why.body p

def kerneltrap (p : ProcId) (k : K Unit) : K Unit := do
  setIntr false (pure ())
  let p ← myproc p
  let t ← peek
  onlyIf ((t.proc p).state = .running) (Xv6Proc.yield p)
  setIntr true (pure ())
  k

inductive CpuPc where
  -- the scheduler, about to take proc[i].lock
  | scan (i : Nat)
  -- the scheduler with p->lock, before and after the switch
  | look (p : ProcId)
  | back (p : ProcId)
  | run (p : ProcId) (k : K Unit)
  | user (p : ProcId)

structure CpuState where
  cpu : Cpu
  pc : CpuPc

structure Machine (C : Type) where
  table : Table
  owner : Lock → Option C
  cpus : C → CpuState
  context : ProcId → K Unit
  panicked : Option String

inductive Event (C : Type) where
  | step (c : C) (answer : Nat)
  | trap (c : C) (why : Trap)
  | tick (c : C)

section
variable {C : Type} [DecidableEq C]

namespace Machine

def goto (m : Machine C) (c : C) (cpu : Cpu) (pc : CpuPc) : Machine C :=
  { m with cpus := Function.update m.cpus c ⟨cpu, pc⟩ }

def setOwner (m : Machine C) (l : Lock) (o : Option C) : Machine C :=
  { m with owner := Function.update m.owner l o }

def fail (m : Machine C) (msg : String) : Machine C := { m with panicked := some msg }

def exec (m : Machine C) (c : C) (cpu : Cpu) (p : ProcId) (answer : Nat) :
    K Unit → Option (Machine C)
  | ret _ => some (m.goto c cpu (.user p))
  | halt msg => some (m.fail msg)
  | more => none
  | pushOff k => some (m.goto c cpu.pushOff (.run p k))
  | popOff k =>
      match cpu.popOff with
      | .error msg => some (m.fail msg)
      | .ok cpu' => some (m.goto c cpu' (.run p k))
  | lock l k =>
      if m.owner l = some c then some (m.fail "acquire")
      else if m.owner l = none then some ((m.setOwner l (some c)).goto c cpu (.run p k))
      else none
  | unlock l k =>
      if m.owner l = some c then some ((m.setOwner l none).goto c cpu (.run p k))
      else some (m.fail "release")
  | setIntr on k => some (m.goto c { cpu with intr := on } (.run p k))
  | setIntena on k => some (m.goto c { cpu with intena := on } (.run p k))
  | sched k =>
      if m.owner (.proc p) ≠ some c then some (m.fail "sched p->lock")
      else if cpu.noff ≠ 1 then some (m.fail "sched locks")
      else if (m.table.proc p).state = .running then some (m.fail "sched running")
      else if cpu.intr then some (m.fail "sched interruptible")
      else some { m.goto c cpu (.back p) with
        context := Function.update m.context p (setIntena cpu.intena k) }
  | spawn q k => some { m.goto c cpu (.run p k) with
      context := Function.update m.context q (forkret q) }
  | act f k => some { m.goto c cpu (.run p (k m.table)) with table := f m.table }
  | ask _ k => some (m.goto c cpu (.run p (k answer)))
  | mark _ k => some (m.goto c cpu (.run p k))

def stepCpu (m : Machine C) (c : C) (answer : Nat) : Option (Machine C) :=
  let cpu := (m.cpus c).cpu
  match (m.cpus c).pc with
  | .scan i =>
      if small : i < nproc then
        let l := Lock.proc ⟨i, small⟩
        if m.owner l = some c then some (m.fail "acquire")
        else if m.owner l = none then
          some ((m.setOwner l (some c)).goto c cpu.pushOff (.look ⟨i, small⟩))
        else none
      else some (m.goto c { cpu with intr := true } (.scan 0))
  | .look p =>
      if (m.table.proc p).state = .runnable then
        some { m.goto c cpu (.run p (m.context p)) with
          table := m.table.set p fun q => { q with state := .running } }
      else some (m.goto c cpu (.back p))
  | .back p =>
      if m.owner (.proc p) = some c then
        match cpu.popOff with
        | .error msg => some (m.fail msg)
        | .ok cpu' => some ((m.setOwner (.proc p) none).goto c cpu' (.scan (p + 1)))
      else some (m.fail "release")
  | .run p k => m.exec c cpu p answer k
  | .user _ => none

def next (m : Machine C) (e : Event C) : Option (Machine C) :=
  if m.panicked.isSome then none
  else match e with
    | .step c answer => m.stepCpu c answer
    | .trap c why =>
        match (m.cpus c).pc with
        | .user p => some (m.goto c (m.cpus c).cpu (.run p (usertrap p why)))
        | _ => none
    | .tick c =>
        match (m.cpus c).pc with
        | .run p k =>
            if (m.cpus c).cpu.intr then some (m.goto c (m.cpus c).cpu (.run p (kerneltrap p k)))
            else none
        | _ => none

/-- Every CPU enters its scheduler with no lock held; a context is a new process's, or
    empty memory, which the switch traps on. -/
structure Boot (m : Machine C) : Prop where
  free : ∀ l, m.owner l = none
  idle : ∀ c, (m.cpus c).pc = .scan 0 ∧ (m.cpus c).cpu.noff = 0
  contexts : ∀ p, m.context p = forkret p ∨ m.context p = halt "kerneltrap"
  fine : m.panicked = none

def Threadless (m : Machine C) : Event C → Prop
  | .step c _ => ∀ p k, (m.cpus c).pc ≠ .run p (mark "clone" k)
  | .trap _ _ | .tick _ => True

end Machine

end

end Xv6Proc
