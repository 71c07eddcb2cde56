import Xv6.Kernel

/- The code of kernel/proc.c on the operations of the kernel machine. What fails in a call (an
   allocation, the copy to the user's address) is an argument of the call. exit is modelled from
   its acquire of wait_lock on; the sleeps of the file system before that are calls of their own. -/
namespace Xv6Kern
open Threads Prog Xv6Proc

section
variable {n m : Nat} {X Y W A : Type}

abbrev P (n : Nat) (X Y W : Type) := Prog (Op n X Y W) Ans

abbrev act (o : Op n X Y W) : P n X Y W (Ans o) := perform o

abbrev procWp [DecidableEq W] (m : Nat) (E : Ext n X Y W) (init : Fin n) (calm : Chan n W → Prop) (p : Fin n)
    (code : P n X Y W A) (l : Ledger n X Y W) (post : A → Ledger n X Y W → Prop) : Prop :=
  wp (kernRules (m := m) E init calm) (.proc p) code l post

def sched : P n X Y W Unit := do
  act .schedCheck
  act .save
  act .loadSched

def yield (p : Fin n) : P n X Y W Unit := do
  act (.acquire (.proc p))
  act .giveUp
  sched
  act (.release (.proc p))

def sleep (p : Fin n) (w : Chan n W) (lk : Lk n) : P n X Y W Unit := do
  act (.acquire (.proc p))
  act (.sleepRelease w lk)
  act (.goSleep w)
  sched
  act .clearChan
  act (.release (.proc p))
  act (.acquire lk)

def wakeup (me : Option (Fin n)) (w : Option (Chan n W)) : List (Fin n) → P n X Y W Unit
  | [] => act (.woke w)
  | q :: rest =>
    if some q ≠ me then do
      act (.acquire (.proc q))
      act (.wakeIf q w)
      act (.release (.proc q))
      wakeup me w rest
    else wakeup me w rest

def kill (pid : Int) : List (Fin n) → P n X Y W Unit
  | [] => pure ()
  | q :: rest => do
    act (.acquire (.proc q))
    if ← act (.killIf q pid) then act (.release (.proc q))
    else do
      act (.release (.proc q))
      kill pid rest

def scheduler : List (Fin n) → P n X Y W Unit
  | [] => pure ()
  | p :: rest => do
    act (.acquire (.proc p))
    if ← act (.pick p) then do
      act (.setProc (some p))
      act .save
      act (.loadProc p)
      act (.setProc none)
      act (.release (.proc p))
      scheduler rest
    else do
      act (.release (.proc p))
      scheduler rest

def forkret (p : Fin n) : P n X Y W Unit := act (.release (.proc p))

def allocprocFound (q : Fin n) (frame table : Bool) : P n X Y W (Option (Fin n)) := do
  act (.acquire .pid)
  let pid ← act .takePid
  act (.release .pid)
  act (.setUsed q pid)
  if frame && table then pure (some q)
  else do
    act (.freeproc q)
    act (.release (.proc q))
    pure none

def allocproc (frame table : Bool) : List (Fin n) → P n X Y W (Option (Fin n))
  | [] => pure none
  | q :: rest => do
    act (.acquire (.proc q))
    if ← act (.isUnused q) then allocprocFound q frame table
    else do
      act (.release (.proc q))
      allocproc frame table rest

def fork (frame table copy : Bool) (procs : List (Fin n)) : P n X Y W Unit := do
  match ← allocproc frame table procs with
  | none => pure ()
  | some q =>
    if copy then do
      act (.clearThread q)
      act (.release (.proc q))
      act (.acquire .wait)
      act (.adopt q)
      act (.release .wait)
      act (.acquire (.proc q))
      act (.setRunnable q)
      act (.release (.proc q))
    else do
      act (.freeproc q)
      act (.release (.proc q))

def reparent (init p : Fin n) (procs : List (Fin n)) : List (Fin n) → P n X Y W Unit
  | [] => pure ()
  | q :: rest => do
    let par ← act (.parent q)
    if par = some p then do
      act (.passOn q)
      wakeup (some p) (some (.proc init)) procs
      reparent init p procs rest
    else reparent init p procs rest

def exit (init p : Fin n) (status : Int32) (procs : List (Fin n)) : P n X Y W Unit := do
  act .checkInit
  act (.acquire .wait)
  reparent init p procs procs
  let par ← act (.parent p)
  wakeup (some p) ((par : Option (Fin n)).map .proc) procs
  act (.acquire (.proc p))
  act (.setZombie status)
  act (.release .wait)
  -- not to return
  sched

/-- One scan of wait's loop over the table: done with its return, or whether it saw a child. -/
def waitScan (p : Fin n) (addr : UInt64) (valid : Bool) (havekids : Bool) :
    List (Fin n) → P n X Y W (Option Bool)
  | [] => pure (some havekids)
  | q :: rest => do
    let par ← act (.parent q)
    if par = some p then do
      act (.acquire (.proc q))
      match ← act (.zombie q) with
      | some pid =>
        if addr ≠ 0 ∧ valid = false then do
          act (.release (.proc q))
          act (.release .wait)
          act (.waitReturn none)
          pure none
        else do
          if addr ≠ 0 then act (.copyout q addr) else pure ()
          act (.reap q addr)
          act (.release (.proc q))
          act (.release .wait)
          act (.waitReturn (some pid))
          pure none
      | none => do
        act (.release (.proc q))
        waitScan p addr valid true rest
    else waitScan p addr valid havekids rest

def waitLoop (p : Fin n) (addr : UInt64) (valid : Bool) (procs : List (Fin n)) : Nat → P n X Y W Unit
  | 0 => act .never
  | turns + 1 => do
    match ← waitScan p addr valid false procs with
    | none => pure ()
    | some havekids => do
      let killed ← act .killed
      let thread ← act .youAThread
      if (!havekids || killed) && !thread then do
        act (.release .wait)
        act (.waitReturn none)
      else do
        sleep p (.proc p) .wait
        waitLoop p addr valid procs turns

def wait (p : Fin n) (addr : UInt64) (valid : Bool) (turns : Nat) (procs : List (Fin n)) :
    P n X Y W Unit := do
  act (.acquire .wait)
  waitLoop p addr valid procs turns

/-- What brings a thread into the kernel. sleep and wakeup are called under some lock of the
    caller; a is a call on the data `ext`. -/
inductive Call (A : Type) where
  | scheduler
  | forkret
  | fork (frame table copy : Bool)
  | exit (status : Int32)
  | wait (addr : UInt64) (valid : Bool) (turns : Nat)
  | kill (pid : Int)
  | sleep (k lk : Nat)
  | wakeup (k lk : Nat)
  | ext (a : A)

def wakeupUnder (me : Option (Fin n)) (k lk : Nat) : P n X Y W Unit := do
  act (.acquire (.other lk))
  wakeup me (some (.other k)) (List.finRange n)
  act (.release (.other lk))

def Call.code (init : Fin n) (ext : Fin n → A → P n X Y W Unit) : Thread n m → Call A → P n X Y W Unit
  | .sched _, .scheduler => Xv6Kern.scheduler (List.finRange n)
  | .proc p, .forkret => Xv6Kern.forkret p
  | .proc _, .fork frame table copy => Xv6Kern.fork frame table copy (List.finRange n)
  | .proc p, .exit status => Xv6Kern.exit init p status (List.finRange n)
  | .proc p, .wait addr valid turns => Xv6Kern.wait p addr valid turns (List.finRange n)
  | .proc _, .kill pid => Xv6Kern.kill pid (List.finRange n)
  | .proc p, .sleep k lk => do
    act (.acquire (.other lk))
    Xv6Kern.sleep p (.other k) (.other lk)
    act (.release (.other lk))
  | .proc p, .wakeup k lk => wakeupUnder (some p) k lk
  | .proc p, .ext a => ext p a
  | _, _ => pure ()

inductive Irq where
  | timer
  | device (k lk : Nat)

def Irq.code : Thread n m → Irq → P n X Y W Unit
  | .proc p, .timer => yield p
  | .sched _, .timer => pure ()
  | t, .device k lk => wakeupUnder t.me k lk

end

end Xv6Kern
