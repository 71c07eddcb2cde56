import Mathlib.Data.List.Induction
import Mathlib.Logic.Function.Basic
import Mathlib.Logic.IsEmpty.Basic

/- The user-level lock of user/userlib.c, one memory access a step. Threads share
   one memory of int cells; the lock word and every thread's local `i` are cells of
   it. The caller's schedule says whose step is next, so a list of threads is a run. -/
namespace Xv6UserLock

/-- Where the compiler put the lock word and the `i` of each thread's lock_acquire. -/
structure Layout (T : Type) where
  lock : Nat
  local_i : T → Nat
  local_ne_lock : ∀ t, local_i t ≠ lock
  local_injective : ∀ t u, local_i t = local_i u → t = u

inductive Caller where
  | acquire
  | release
  deriving DecidableEq, Repr

/- A thread outside both functions, in the body of lock_acquire, in a call of xchg
   made by either function, or between the two. -/
inductive Pc where
  | outside
  | declare
  | argument (c : Caller)
  | store (c : Caller) (new : Int)
  | reload (c : Caller)
  | test (value : Int)
  | critical
  deriving DecidableEq, Repr

structure State (T : Type) where
  mem : Nat → Int
  pc : T → Pc

variable {T : Type} [DecidableEq T]

/-- The pointer given to xchg: `p = &i` in lock_acquire, the literal 0 in lock_release. -/
def pointer (L : Layout T) (t : T) : Caller → Nat
  | .acquire => L.local_i t
  | .release => 0

def State.goto (s : State T) (t : T) (pc : Pc) : State T :=
  { s with pc := Function.update s.pc t pc }

def State.put (s : State T) (a : Nat) (v : Int) : State T :=
  { s with mem := Function.update s.mem a v }

def step (L : Layout T) (s : State T) (t : T) : State T :=
  match s.pc t with
  | .outside => s.goto t .declare
  | .declare => (s.put (L.local_i t) 1).goto t (.argument .acquire)
  | .argument c => s.goto t (.store c (s.mem L.lock))
  -- xchg: old = p; *p = new; return *old
  | .store c new => (s.put (pointer L t c) new).goto t (.reload c)
  | .reload .acquire => s.goto t (.test (s.mem (pointer L t .acquire)))
  | .reload .release => s.goto t .outside
  | .test value => if value ≠ 0 then s.goto t (.argument .acquire) else s.goto t .critical
  | .critical => s.goto t (.argument .release)

def lockInit (L : Layout T) (mem : Nat → Int) : State T :=
  ⟨Function.update mem L.lock 0, fun _ => .outside⟩

def run (L : Layout T) (mem : Nat → Int) (schedule : List T) : State T :=
  schedule.foldl (step L) (lockInit L mem)

def Pc.inAcquire : Pc → Prop
  | .declare | .argument .acquire | .store .acquire _ | .reload .acquire | .test _ => True
  | _ => False

def Pc.inRelease : Pc → Prop
  | .argument .release | .store .release _ | .reload .release => True
  | _ => False

/-- What the lock promises of every schedule, from a freshly initialised lock. -/
structure Mutex (L : Layout T) (mem : Nat → Int) : Prop where
  exclusive : ∀ schedule t u, (run L mem schedule).pc t = .critical →
    (run L mem schedule).pc u = .critical → t = u
  takes : ∀ schedule t, (run L mem schedule).pc t ≠ .critical →
    (run L mem (schedule ++ [t])).pc t = .critical →
    ∃ before after, schedule = before ++ t :: after ∧
      (∀ middle, middle <+: t :: after → ((run L mem (before ++ middle)).pc t).inAcquire) ∧
      (run L mem before).mem L.lock = 0 ∧ (run L mem (before ++ [t])).mem L.lock ≠ 0
  frees : ∀ schedule t, ((run L mem schedule).pc t).inRelease →
    (run L mem (schedule ++ [t])).pc t = .outside →
    (run L mem (schedule ++ [t])).mem L.lock = 0
  frame : ∀ schedule t, ((run L mem schedule).pc t).inAcquire ∨
      ((run L mem schedule).pc t).inRelease →
    ∀ a, a ≠ L.lock → a ≠ L.local_i t →
      (run L mem (schedule ++ [t])).mem a = (run L mem schedule).mem a

theorem run_snoc (L : Layout T) (mem : Nat → Int) (schedule : List T) (t : T) :
    run L mem (schedule ++ [t]) = step L (run L mem schedule) t := by
  simp [run]

/- No step stores a nonzero value anywhere but in the thread's own local: the value
   in flight is always the lock word as read, and the lock word stays free. -/
structure Free (L : Layout T) (s : State T) : Prop where
  lock : s.mem L.lock = 0
  flight : ∀ t c new, s.pc t = .store c new → new = 0

theorem free_goto {L : Layout T} {s : State T} (free : Free L s) (t : T) (pc : Pc)
    (zero : ∀ c new, pc = .store c new → new = 0) : Free L (s.goto t pc) := by
  refine ⟨free.lock, ?_⟩
  intro u c new at_store
  by_cases same : u = t
  · subst u
    exact zero c new (by simpa [State.goto] using at_store)
  · exact free.flight u c new (by simpa [State.goto, same] using at_store)

omit [DecidableEq T] in
theorem free_put {L : Layout T} {s : State T} (free : Free L s) (a : Nat) (v : Int)
    (harmless : a = L.lock → v = 0) : Free L (s.put a v) := by
  refine ⟨?_, free.flight⟩
  by_cases same : a = L.lock
  · simp [State.put, same, harmless same]
  · simp [State.put, Ne.symm same, free.lock]

theorem free_step {L : Layout T} {s : State T} (free : Free L s) (t : T) : Free L (step L s t) := by
  unfold step
  split
  · exact free_goto free t _ (by simp)
  · exact free_goto (free_put free _ _ (fun same => absurd same (L.local_ne_lock t))) t _ (by simp)
  · exact free_goto free t _ (by simp [free.lock])
  · rename_i c new at_store
    exact free_goto (free_put free _ _ (fun _ => free.flight t c new at_store)) t _ (by simp)
  · exact free_goto free t _ (by simp)
  · exact free_goto free t _ (by simp)
  · split
    · exact free_goto free t _ (by simp)
    · exact free_goto free t _ (by simp)
  · exact free_goto free t _ (by simp)

theorem free_run (L : Layout T) (mem : Nat → Int) (schedule : List T) : Free L (run L mem schedule) := by
  induction schedule using List.reverseRecOn with
  | nil => exact ⟨by simp [run, lockInit], by simp [run, lockInit]⟩
  | append_singleton schedule t ih =>
    rw [run_snoc]
    exact free_step ih t

/- Six steps of one thread take it through lock_acquire, wherever the others stand. -/
theorem acquire_returns {L : Layout T} {s : State T} (free : Free L s) {t : T} (start : s.pc t = .outside) :
    ([t, t, t, t, t, t].foldl (step L) s).pc t = .critical ∧ ([t, t, t, t, t].foldl (step L) s).pc t = .test 0 ∧
      ∀ u, u ≠ t → ([t, t, t, t, t, t].foldl (step L) s).pc u = s.pc u := by
  have value := free.lock
  have apart := L.local_ne_lock t
  refine ⟨?_, ?_, ?_⟩
  · simp [step, start, State.goto, State.put, pointer, value, apart.symm]
  · simp [step, start, State.goto, State.put, pointer, value, apart.symm]
  intro u other
  simp [step, start, State.goto, State.put, pointer, value, apart.symm, other]

/-- lock_acquire returns without ever taking the lock, so the lock is a mutex for
    no number of threads but zero. -/
theorem mutex_iff_no_thread (L : Layout T) (mem : Nat → Int) : Mutex L mem ↔ IsEmpty T := by
  constructor
  · intro mutex
    refine ⟨fun t => ?_⟩
    have passed := acquire_returns (free_run L mem []) (t := t) (by simp [run, lockInit])
    have testing : (run L mem [t, t, t, t, t]).pc t = .test 0 := passed.2.1
    obtain ⟨before, _, _, _, _, held⟩ := mutex.takes [t, t, t, t, t] t (by simp [testing])
      passed.1
    exact held (free_run L mem _).lock
  · intro none
    exact ⟨fun _ t => none.elim t, fun _ t => none.elim t, fun _ t => none.elim t, fun _ t => none.elim t⟩

def twoThreads : Layout Bool :=
  ⟨400, fun t => if t then 200 else 300, by decide, by decide⟩

/- Two threads inside at once, the lock word still 0, and lock_release storing to
   address 0, which held the int 7. -/
theorem two_threads_both_critical : ¬ Mutex twoThreads (fun a => if a = 0 then 7 else 0) ∧
    (run twoThreads (fun a => if a = 0 then 7 else 0)
      (List.replicate 6 true ++ List.replicate 6 false)).pc true = .critical ∧
    (run twoThreads (fun a => if a = 0 then 7 else 0)
      (List.replicate 6 true ++ List.replicate 6 false)).pc false = .critical ∧
    (run twoThreads (fun a => if a = 0 then 7 else 0) (List.replicate 9 true)).mem 0 = 0 := by
  have inside : (run twoThreads (fun a => if a = 0 then 7 else 0)
      (List.replicate 6 true ++ List.replicate 6 false)).pc true = .critical ∧
    (run twoThreads (fun a => if a = 0 then 7 else 0)
      (List.replicate 6 true ++ List.replicate 6 false)).pc false = .critical := by decide
  refine ⟨?_, inside.1, inside.2, by decide⟩
  intro mutex
  exact absurd (mutex.exclusive _ _ _ inside.1 inside.2) (by decide)

end Xv6UserLock
