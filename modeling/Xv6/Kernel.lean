import Mathlib.Data.Finset.Card
import Xv6.Lib.Interrupts
import Xv6.ProcOps

/- Processes, CPUs and interrupts: scheduler, sleep, wakeup, kill, fork, exit and wait of
   kernel/proc.c. Every operation is performed by a kernel thread, a process or a CPU's
   scheduler, on the CPU that has its registers. p->lock is taken on one side of swtch and
   released on the other. The table has n slots, the machine has m CPUs. -/
namespace Xv6Kern
open Threads Prog Xv6Proc

inductive Chan (n : Nat) (W : Type) where
  | proc (p : Fin n)
  | ext (w : W)
  | other (k : Nat)
  deriving DecidableEq

/-- The locks: of a slot, pid_lock, wait_lock, the lock of the data `ext`, and any others. -/
inductive Lk (n : Nat) where
  | proc (p : Fin n)
  | pid | wait | ext
  | other (k : Nat)
  deriving DecidableEq

inductive Thread (n m : Nat) where
  | sched (c : Fin m)
  | proc (p : Fin n)
  deriving DecidableEq

structure Slot (n : Nat) (W : Type) where
  state : ProcState
  chan : Option (Chan n W)
  killed : Bool
  xstate : Int32
  pid : Nat

/-- A wait has freed the slot of a process: its pid, the pid of the waiting process, and the
    address that wait was called with. -/
structure Reap where
  pid : Nat
  waiter : Nat
  addr : UInt64
  deriving DecidableEq

/-- What happened so far, by pid: who created a process, its exit status, whom wait has freed
    and whose pid it has returned, and what status was stored for that. -/
structure History where
  creator : Nat → Option Nat
  exits : Nat → Option Int32
  reaped : List Reap
  stored : List (Reap × Int32)
  returned : List Nat

/-- `cur` is the thread whose registers a CPU has, `cproc` is c->proc. -/
structure Kernel (n m : Nat) (X W : Type) where
  slot : Fin n → Slot n W
  parent : Fin n → Option (Fin n)
  thread : Fin n → Bool
  nextpid : Nat
  owner : Lk n → Option (Fin m)
  noff : Fin m → Nat
  cur : Fin m → Thread n m
  cproc : Fin m → Option (Fin n)
  ext : X
  hist : History

namespace Slot
variable {n : Nat} {W : Type}

def setState (x : Slot n W) (state : ProcState) : Slot n W := { x with state := state }
def setChan (x : Slot n W) (chan : Option (Chan n W)) : Slot n W := { x with chan := chan }

/-- p->xstate = status; p->state = ZOMBIE. -/
def exit (x : Slot n W) (status : Int32) : Slot n W := { x with xstate := status, state := .zombie }

def use (x : Slot n W) (pid : Nat) : Slot n W := { x with pid := pid, state := .used }

def clear (_ : Slot n W) : Slot n W := ⟨.unused, none, false, 0, 0⟩

def kill (x : Slot n W) : Slot n W :=
  { x with killed := true, state := if x.state = .sleeping then .runnable else x.state }

end Slot

namespace Kernel
variable {n m : Nat} {X W : Type}

def setSlot (s : Kernel n m X W) (p : Fin n) (x : Slot n W) : Kernel n m X W :=
  { s with slot := Function.update s.slot p x }
def setState (s : Kernel n m X W) (p : Fin n) (state : ProcState) : Kernel n m X W :=
  s.setSlot p ((s.slot p).setState state)
def setParent (s : Kernel n m X W) (p : Fin n) (parent : Option (Fin n)) : Kernel n m X W :=
  { s with parent := Function.update s.parent p parent }
def setThread (s : Kernel n m X W) (p : Fin n) (thread : Bool) : Kernel n m X W :=
  { s with thread := Function.update s.thread p thread }
def setNextpid (s : Kernel n m X W) (nextpid : Nat) : Kernel n m X W := { s with nextpid := nextpid }
def setOwner (s : Kernel n m X W) (lk : Lk n) (c : Option (Fin m)) : Kernel n m X W :=
  { s with owner := Function.update s.owner lk c }
def setNoff (s : Kernel n m X W) (c : Fin m) (noff : Nat) : Kernel n m X W :=
  { s with noff := Function.update s.noff c noff }
def setCur (s : Kernel n m X W) (c : Fin m) (t : Thread n m) : Kernel n m X W :=
  { s with cur := Function.update s.cur c t }
def setCproc (s : Kernel n m X W) (c : Fin m) (p : Option (Fin n)) : Kernel n m X W :=
  { s with cproc := Function.update s.cproc c p }
def setExt (s : Kernel n m X W) (x : X) : Kernel n m X W := { s with ext := x }
def setHist (s : Kernel n m X W) (hist : History) : Kernel n m X W := { s with hist := hist }

end Kernel

namespace History

def setCreator (h : History) (pid creator : Nat) : History :=
  { h with creator := Function.update h.creator pid (some creator) }
def setExit (h : History) (pid : Nat) (status : Int32) : History :=
  { h with exits := Function.update h.exits pid (some status) }
def addReaped (h : History) (r : Reap) : History := { h with reaped := h.reaped ++ [r] }
def addReturned (h : History) (pid : Option Nat) : History :=
  { h with returned := h.returned ++ pid.toList }
def addStored (h : History) (r : Reap) (status : Int32) : History :=
  { h with stored := h.stored ++ [(r, status)] }

end History

inductive Op (n : Nat) (X Y W : Type) where
  | acquire (lk : Lk n)
  | release (lk : Lk n)
  -- the release of lk in sleep
  | sleepRelease (w : Chan n W) (lk : Lk n)
  -- scheduler: if(p->state == RUNNABLE) p->state = RUNNING; c->proc = p
  | pick (p : Fin n)
  | setProc (p : Option (Fin n))
  -- the tests of sched, and the two halves of swtch: the registers are saved, and others loaded
  | schedCheck
  | save
  | loadProc (p : Fin n)
  | loadSched
  -- the process itself: p->chan = chan; p->state = SLEEPING, later p->chan = 0; and yield
  | goSleep (w : Chan n W)
  | clearChan
  | giveUp
  | killed
  | pid
  -- other slots, under their locks; woke is the return of wakeup
  | wakeIf (q : Fin n) (w : Option (Chan n W))
  | woke (w : Option (Chan n W))
  | killIf (q : Fin n) (pid : Int)
  -- fork
  | isUnused (q : Fin n)
  | takePid
  | setUsed (q : Fin n) (pid : Nat)
  | freeproc (q : Fin n)
  | clearThread (q : Fin n)
  | adopt (q : Fin n)
  | setRunnable (q : Fin n)
  -- exit and wait
  | checkInit
  | parent (q : Fin n)
  | passOn (q : Fin n)
  | setZombie (status : Int32)
  | zombie (q : Fin n)
  | copyout (q : Fin n) (addr : UInt64)
  | reap (q : Fin n) (addr : UInt64)
  | waitReturn (r : Option Nat)
  | youAThread
  -- the data under the lock `ext`; y is what the process notes about them, and a stamp has its pid
  | get
  | put (x : X) (y : Y)
  | stamp (f : Nat → X) (y : Y)
  -- a loop that was not followed to its end
  | never

@[reducible] def Ans {n : Nat} {X Y W : Type} : Op n X Y W → Type
  | .pick _ | .killed | .killIf _ _ | .isUnused _ | .youAThread => Bool
  | .takePid | .pid => Nat
  | .parent _ => Option (Fin n)
  | .zombie _ => Option Nat
  | .get => X
  | _ => Unit

section
variable {n m : Nat} {X Y W : Type} [DecidableEq W]

/-- acquire and release on CPU c. They wait or panic where there is no result. -/
def Kernel.acquire (s : Kernel n m X W) (c : Fin m) (lk : Lk n) : Option (Kernel n m X W) :=
  if (s.owner lk).isNone then some ((s.setOwner lk (some c)).setNoff c (s.noff c + 1)) else none

def Kernel.release (s : Kernel n m X W) (c : Fin m) (lk : Lk n) : Option (Kernel n m X W) :=
  if s.owner lk = some c then some ((s.setOwner lk none).setNoff c (s.noff c - 1)) else none

def Kernel.wakeIf (s : Kernel n m X W) (q : Fin n) (w : Option (Chan n W)) : Kernel n m X W :=
  if (s.slot q).state = .sleeping ∧ (s.slot q).chan = w then s.setState q .runnable else s

def Kernel.freeproc (s : Kernel n m X W) (q : Fin n) : Kernel n m X W :=
  (s.setSlot q (s.slot q).clear).setParent q none

def nextProc (init : Fin n) (c : Fin m) (p : Fin n) :
    (o : Op n X Y W) → Kernel n m X W → Option (Ans o × Kernel n m X W)
  | .acquire lk, s => (s.acquire c lk).map fun s => ((), s)
  | .release lk, s | .sleepRelease _ lk, s => (s.release c lk).map fun s => ((), s)
  | .schedCheck, s => if s.owner (.proc p) = some c ∧ s.noff c = 1 ∧ (s.slot p).state ≠ .running then
      some ((), s)
    else none
  | .save, s | .woke _, s => some ((), s)
  | .loadSched, s => some ((), s.setCur c (.sched c))
  | .goSleep w, s => some ((), s.setSlot p (((s.slot p).setChan (some w)).setState .sleeping))
  | .clearChan, s => some ((), s.setSlot p ((s.slot p).setChan none))
  | .giveUp, s => some ((), s.setState p .runnable)
  | .killed, s => some ((s.slot p).killed, s)
  | .pid, s => some ((s.slot p).pid, s)
  | .wakeIf q w, s => some ((), s.wakeIf q w)
  | .killIf q pid, s => if ((s.slot q).pid : Int) = pid then some (true, s.setSlot q (s.slot q).kill)
      else some (false, s)
  | .isUnused q, s => some (decide ((s.slot q).state = .unused), s)
  | .takePid, s => some (s.nextpid, s.setNextpid (s.nextpid + 1))
  | .setUsed q pid, s => some ((), s.setSlot q ((s.slot q).use pid))
  | .freeproc q, s => some ((), s.freeproc q)
  | .clearThread q, s => some ((), s.setThread q false)
  | .adopt q, s => some ((), (s.setParent q (some p)).setHist
      (s.hist.setCreator (s.slot q).pid (s.slot p).pid))
  | .setRunnable q, s => some ((), s.setState q .runnable)
  | .checkInit, s => if p = init then none else some ((), s)
  | .parent q, s => some (s.parent q, s)
  | .passOn q, s => some ((), s.setParent q (some init))
  | .setZombie status, s => some ((), (s.setSlot p ((s.slot p).exit status)).setHist
      (s.hist.setExit (s.slot p).pid status))
  | .zombie q, s => some (if (s.slot q).state = .zombie then some (s.slot q).pid else none, s)
  | .copyout q addr, s => some ((), s.setHist
      (s.hist.addStored ⟨(s.slot q).pid, (s.slot p).pid, addr⟩ (s.slot q).xstate))
  | .reap q addr, s => some ((), (s.freeproc q).setHist
      (s.hist.addReaped ⟨(s.slot q).pid, (s.slot p).pid, addr⟩))
  | .waitReturn r, s => some ((), s.setHist (s.hist.addReturned r))
  | .youAThread, s => some (s.thread p, s)
  | .get, s => some (s.ext, s)
  | .put x _, s => some ((), s.setExt x)
  | .stamp f _, s => some ((), s.setExt (f (s.slot p).pid))
  | .never, _ | .pick _, _ | .setProc _, _ | .loadProc _, _ => none

def nextSched (c : Fin m) : (o : Op n X Y W) → Kernel n m X W → Option (Ans o × Kernel n m X W)
  | .acquire lk, s => (s.acquire c lk).map fun s => ((), s)
  | .release lk, s => (s.release c lk).map fun s => ((), s)
  | .pick p, s => if (s.slot p).state = .runnable then some (true, s.setState p .running)
    else some (false, s)
  | .setProc p, s => some ((), s.setCproc c p)
  | .save, s | .woke _, s => some ((), s)
  | .loadProc p, s => some ((), s.setCur c (.proc p))
  | .wakeIf q w, s => some ((), s.wakeIf q w)
  | _, _ => none

def next (init : Fin n) (c : Fin m) (t : Thread n m) (o : Op n X Y W) (s : Kernel n m X W) :
    Option (Ans o × Kernel n m X W) :=
  match t with
  | .proc p => nextProc init c p o s
  | .sched _ => nextSched c o s

end

/- What a thread holds and knows. -/

/-- Data under the lock `ext` and the rules for them: the channels on which processes wait for
    a condition, an invariant, what a process with pid k may note about the data, and which
    changes it may make. The notes of the others stay true. A process may exit with some notes;
    those do not speak of its pid. -/
structure Ext (n : Nat) (X Y W : Type) where
  ready : W → X → Prop
  inv : X → Prop
  noted : Fin n → Nat → Y → X → Prop
  may : Fin n → Nat → X → Y → X → Y → Prop
  quits : Y → Prop
  inv_may : ∀ p k x y x' y', inv x → noted p k y x → may p k x y x' y' → inv x'
  noted_may : ∀ p k x y x' y', inv x → noted p k y x → may p k x y x' y' → noted p k y' x'
  noted_other : ∀ p k x y x' y' q j z, inv x → noted p k y x → may p k x y x' y' → q ≠ p →
    noted q j z x → noted q j z x'
  noted_quits : ∀ p k j x y, quits y → noted p k y x → noted p j y x

/-- Where a thread is: a process that runs, has given up the CPU by a new state, or is away in
    swtch; a scheduler that has picked a process, has set c->proc, or has switched to it. -/
inductive Mode (n : Nat) where
  | run
  | ready (state : ProcState)
  | away
  | idle
  | picked (p : Fin n)
  | named (p : Fin n)
  | gone (p : Fin n)
  deriving DecidableEq

/-- What a process knows about slots: one that is UNUSED, the pid it has taken, the slot that it
    fills; under wait_lock its own parent, the slots that are no ZOMBIE children of its and those
    that are no children, a child, a ZOMBIE child with its pid, the address where it has stored
    the status, and that it has passed children on and must exit; and the pid that its wait has
    to return. -/
structure Know (n : Nat) where
  vacant : Option (Fin n)
  newpid : Option Nat
  child : Option (Fin n)
  adopted : Bool
  par : Option (Option (Fin n))
  quiet : Fin n → Prop
  strange : Fin n → Prop
  kid : Option (Fin n)
  found : Option (Fin n × Nat)
  copied : Option UInt64
  leaving : Bool
  owed : Option Nat

def Know.nothing {n : Nat} : Know n :=
  ⟨none, none, none, false, none, fun _ => False, fun _ => False, none, none, none, false, none⟩

/-- `bed` is set from the release in sleep until p->chan = 0; `awake lk w q` says that q does not
    sleep on w with lk; `dirty w` says that the condition of w may have come true unannounced. -/
structure Ledger (n : Nat) (X Y W : Type) where
  locks : Finset (Lk n)
  mode : Mode n
  bed : Option (Chan n W × Lk n)
  awake : Lk n → Chan n W → Fin n → Prop
  dirty : Chan n W → Prop
  view : Option X
  note : Y
  know : Know n

namespace Know
variable {n : Nat}

def setVacant (k : Know n) (vacant : Option (Fin n)) : Know n := { k with vacant := vacant }
def setNewpid (k : Know n) (newpid : Option Nat) : Know n := { k with newpid := newpid }
def setChild (k : Know n) (child : Option (Fin n)) (adopted : Bool) : Know n :=
  { k with child := child, adopted := adopted }
def setPar (k : Know n) (par : Option (Option (Fin n))) : Know n := { k with par := par }
def setQuiet (k : Know n) (quiet : Fin n → Prop) : Know n := { k with quiet := quiet }
def setKid (k : Know n) (kid : Option (Fin n)) : Know n := { k with kid := kid }
def setStrange (k : Know n) (strange : Fin n → Prop) : Know n := { k with strange := strange }
def setFound (k : Know n) (found : Option (Fin n × Nat)) : Know n := { k with found := found, copied := none }
def setCopied (k : Know n) (copied : Option UInt64) : Know n := { k with copied := copied }
def setLeaving (k : Know n) (leaving : Bool) : Know n := { k with leaving := leaving }
def setOwed (k : Know n) (owed : Option Nat) : Know n := { k with owed := owed }

end Know

namespace Ledger
variable {n : Nat} {X Y W : Type}

def setLocks (l : Ledger n X Y W) (locks : Finset (Lk n)) : Ledger n X Y W := { l with locks := locks }
def setMode (l : Ledger n X Y W) (mode : Mode n) : Ledger n X Y W := { l with mode := mode }
def setBed (l : Ledger n X Y W) (bed : Option (Chan n W × Lk n)) : Ledger n X Y W := { l with bed := bed }
def setAwake (l : Ledger n X Y W) (awake : Lk n → Chan n W → Fin n → Prop) : Ledger n X Y W :=
  { l with awake := awake }
def setDirty (l : Ledger n X Y W) (dirty : Chan n W → Prop) : Ledger n X Y W := { l with dirty := dirty }
def setView (l : Ledger n X Y W) (view : Option X) : Ledger n X Y W := { l with view := view }
def setNote (l : Ledger n X Y W) (note : Y) : Ledger n X Y W := { l with note := note }
def setKnow (l : Ledger n X Y W) (know : Know n) : Ledger n X Y W := { l with know := know }

end Ledger

section
variable {n m : Nat} {X Y W : Type}

/-- The lock under which the condition of a channel is tested and changed. -/
def guardOf : Chan n W → Option (Lk n)
  | .proc _ => some .wait
  | .ext _ => some .ext
  | .other _ => none

def Settled (me : Option (Fin n)) (l : Ledger n X Y W) (lk : Lk n) : Prop :=
  ∀ w, guardOf w = some lk → l.dirty w → ∀ q, some q ≠ me → l.awake lk w q

def Waits (E : Ext n X Y W) (p : Fin n) (l : Ledger n X Y W) : Chan n W → Prop
  | .proc q => q = p ∧ ∀ q, l.know.quiet q
  | .ext w => ∃ x, l.view = some x ∧ ¬ E.ready w x
  | .other _ => True

def allowsProc (E : Ext n X Y W) (init p : Fin n) (l : Ledger n X Y W) : Op n X Y W → Prop
  | .acquire lk => lk ∉ l.locks ∧ l.mode = .run ∧ l.bed = none
  | .release lk => lk ∈ l.locks ∧ Settled (some p) l lk ∧ (lk = .wait → l.know.leaving = false) ∧
      (lk = .proc p → (l.mode = .run ∨ l.mode = .away) ∧ l.bed = none)
  | .sleepRelease w lk => l.mode = .run ∧ l.bed = none ∧ .proc p ∈ l.locks ∧ lk ∈ l.locks ∧
      (∀ q, lk ≠ .proc q) ∧ Settled (some p) l lk ∧ (guardOf w = none ∨ guardOf w = some lk) ∧
      (lk = .wait → l.know.leaving = false) ∧ Waits E p l w
  | .schedCheck | .save | .loadSched => (∃ st, l.mode = .ready st) ∧ l.locks = {.proc p}
  | .goSleep w => l.mode = .run ∧ .proc p ∈ l.locks ∧ ∃ lk, l.bed = some (w, lk)
  | .clearChan => l.mode = .away
  | .giveUp => l.mode = .run ∧ .proc p ∈ l.locks ∧ l.bed = none
  | .killed | .pid | .checkInit | .youAThread => True
  | .woke w => l.mode = .run ∧ ∀ v, w = some v → ∀ lk ∈ l.locks, ∀ q, q ≠ p → l.awake lk v q
  | .wakeIf q _ => .proc q ∈ l.locks ∧ q ≠ p
  | .killIf q _ => .proc q ∈ l.locks ∧ (q = p → l.mode = .run ∧ l.bed = none)
  | .isUnused q => .proc q ∈ l.locks ∧ l.mode = .run
  | .takePid => l.mode = .run ∧ .pid ∈ l.locks ∧ l.know.newpid = none
  | .setUsed q pid => q ≠ p ∧ l.know.vacant = some q ∧ l.know.newpid = some pid ∧ l.know.child = none
  | .freeproc q => .proc q ∈ l.locks ∧ q ≠ p ∧ l.know.child = some q ∧ l.know.adopted = false
  | .clearThread q => l.know.child = some q
  | .adopt q => .wait ∈ l.locks ∧ q ≠ p ∧ l.know.child = some q ∧ l.know.adopted = false
  | .setRunnable q => .proc q ∈ l.locks ∧ q ≠ p ∧ l.know.child = some q ∧ l.know.adopted = true
  | .parent _ => .wait ∈ l.locks
  | .passOn q => p ≠ init ∧ l.mode = .run ∧ .wait ∈ l.locks ∧ l.know.kid = some q ∧ l.know.child ≠ some q
  | .setZombie _ => E.quits l.note ∧ p ≠ init ∧ l.mode = .run ∧ l.bed = none ∧ .proc p ∈ l.locks ∧ .wait ∈ l.locks ∧
      l.know.child = none ∧ l.know.newpid = none ∧ l.know.owed = none ∧ l.know.found = none ∧
      (∀ q, l.know.strange q) ∧ ∃ par, l.know.par = some par ∧ ∀ r, par = some r → ∀ q, q ≠ p → l.awake .wait (.proc r) q
  | .zombie q => l.mode = .run ∧ .proc q ∈ l.locks ∧ q ≠ p ∧ .wait ∈ l.locks ∧ l.know.kid = some q
  | .copyout q _ => ∃ pid, l.know.found = some (q, pid)
  | .reap q addr => q ≠ p ∧ l.know.owed = none ∧ (addr ≠ 0 → l.know.copied = some addr) ∧
      ∃ pid, l.know.found = some (q, pid)
  | .waitReturn r => l.know.owed = r
  | .get => .ext ∈ l.locks
  | .put x y => .ext ∈ l.locks ∧ l.mode = .run ∧ ∃ x₀, l.view = some x₀ ∧ ∀ k, E.may p k x₀ l.note x y
  | .stamp f y => .ext ∈ l.locks ∧ l.mode = .run ∧ ∃ x₀, l.view = some x₀ ∧
      ∀ k, E.may p k x₀ l.note (f k) y
  | .never => True
  | .pick _ | .setProc _ | .loadProc _ => False

def allowsSched (l : Ledger n X Y W) : Op n X Y W → Prop
  | .acquire lk => lk ∉ l.locks ∧ l.mode = .idle
  | .release lk => lk ∈ l.locks ∧ l.mode = .idle ∧ Settled none l lk
  | .pick p => l.mode = .idle ∧ l.locks = {.proc p}
  | .setProc (some p) => l.mode = .picked p
  | .setProc none => ∃ p, l.mode = .gone p
  | .save => ∃ p, l.mode = .named p
  | .loadProc p => l.mode = .named p
  | .wakeIf q _ => .proc q ∈ l.locks ∧ l.mode = .idle
  | .woke w => ∀ v, w = some v → ∀ lk ∈ l.locks, ∀ q, l.awake lk v q
  | _ => False

def allows (E : Ext n X Y W) (init : Fin n) : Thread n m → Op n X Y W → Ledger n X Y W → Prop
  | .proc p, o, l => allowsProc E init p l o
  | .sched _, o, l => allowsSched l o

/-- What the answers tell: a running process is not UNUSED and not its own parent; calm names
    the conditions that a killed process has announced. -/
def fits (calm : Chan n W → Prop) (init : Fin n) (me : Option (Fin n)) (l : Ledger n X Y W) :
    (o : Op n X Y W) → Ans o → Prop
  | .isUnused q, a => some q = me → a = false
  | .checkInit, _ => me ≠ some init
  | .parent q, par => par = me → some q ≠ me
  | .get, x => ∀ x₀, l.view = some x₀ → x = x₀
  | .killed, a => a = true → ∀ w, calm w → ¬ l.dirty w
  | .never, _ => False
  | _, _ => True

def Ledger.drop (l : Ledger n X Y W) (lk : Lk n) : Ledger n X Y W where
  locks := l.locks.erase lk
  mode := l.mode
  bed := l.bed
  awake := fun lk' w q => lk' ≠ lk ∧ l.awake lk' w q
  dirty := fun w => guardOf w ≠ some lk ∧ l.dirty w
  view := if lk = .ext then none else l.view
  note := l.note
  know := match lk with
    | .proc _ => (l.know.setVacant none).setFound none
    | .wait => ((((l.know.setPar none).setQuiet fun _ => False).setStrange fun _ => False).setKid
        none).setFound none
    | _ => l.know

def book (E : Ext n X Y W) (init : Fin n) (me : Option (Fin n)) (l : Ledger n X Y W) :
    (o : Op n X Y W) → Ans o → Ledger n X Y W
  | .acquire lk, _ => l.setLocks (insert lk l.locks)
  | .release lk, _ => match l.mode with
    | .away => if lk ∈ me.map Lk.proc then (l.drop lk).setMode .run else l.drop lk
    | _ => l.drop lk
  | .sleepRelease w lk, _ => (l.drop lk).setBed (some (w, lk))
  | .pick p, true => l.setMode (.picked p)
  | .setProc (some p), _ => l.setMode (.named p)
  | .setProc none, _ => l.setMode .idle
  | .loadProc p, _ => l.setMode (.gone p)
  | .loadSched, _ => l.setMode .away
  | .goSleep _, _ => l.setMode (.ready .sleeping)
  | .clearChan, _ => l.setBed none
  | .giveUp, _ => l.setMode (.ready .runnable)
  | .wakeIf q w, _ => l.setAwake fun lk w' q' =>
      l.awake lk w' q' ∨ lk ∈ l.locks ∧ some w' = w ∧ q' = q
  | .isUnused q, true => l.setKnow (l.know.setVacant (some q))
  | .takePid, pid => l.setKnow (l.know.setNewpid (some pid))
  | .setUsed q _, _ => l.setKnow (((l.know.setVacant none).setNewpid none).setChild (some q) false)
  | .freeproc _, _ => l.setKnow (l.know.setChild none false)
  | .adopt q, _ => l.setKnow ((l.know.setChild (some q) true).setStrange fun r =>
      l.know.strange r ∧ r ≠ q)
  | .setRunnable _, _ => l.setKnow (l.know.setChild none false)
  | .parent q, par =>
    let k := if some q = me then l.know.setPar (some par) else l.know
    l.setKnow (if par = me then k.setKid (some q)
      else ((k.setKid none).setQuiet fun r => k.quiet r ∨ r = q).setStrange fun r => k.strange r ∨ r = q)
  | .passOn q, _ => (l.setKnow ((((l.know.setKid none).setFound none).setStrange fun r =>
      l.know.strange r ∨ r = q).setLeaving true)).setDirty fun w => l.dirty w ∨ w = .proc init
  | .setZombie _, _ => (l.setKnow (l.know.setLeaving false)).setMode (.ready .zombie)
  | .zombie q, some pid => l.setKnow (l.know.setFound (some (q, pid)))
  | .zombie q, none => l.setKnow (l.know.setQuiet fun r => l.know.quiet r ∨ r = q)
  | .copyout _ addr, _ => l.setKnow (l.know.setCopied (some addr))
  | .reap _ _, _ => l.setKnow (((l.know.setFound none).setKid none).setOwed (l.know.found.map Prod.snd))
  | .waitReturn _, _ => l.setKnow (l.know.setOwed none)
  | .get, x => l.setView (some x)
  | .put x y, _ => ((l.setView (some x)).setNote y).setDirty fun w => l.dirty w ∨
      ∃ v x₀, w = .ext v ∧ l.view = some x₀ ∧ E.ready v x ∧ ¬ E.ready v x₀
  | .stamp f y, _ => ((l.setView none).setNote y).setDirty fun w => l.dirty w ∨
      ∃ v x₀ k, w = .ext v ∧ l.view = some x₀ ∧ E.ready v (f k) ∧ ¬ E.ready v x₀
  | _, _ => l

def Thread.me : Thread n m → Option (Fin n)
  | .proc p => some p
  | .sched _ => none

variable [DecidableEq W]

/-- The operations, each on the CPU where the thread runs, and the ledgers. -/
def kernRules (E : Ext n X Y W) (init : Fin n) (calm : Chan n W → Prop) :
    Rules (Thread n m) (Op n X Y W) Ans (Kernel n m X W) (Ledger n X Y W) where
  exec := fun t o s a s' => ∃ c, s.cur c = t ∧ next init c t o s = some (a, s')
  allows := fun t o l => allows E init t o l
  fits := fun t o l a => fits calm init t.me l o a
  book := fun t o l a => book E init t.me l o a

end

end Xv6Kern
