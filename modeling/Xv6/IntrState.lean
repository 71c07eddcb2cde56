import Xv6.Lib.Runs
import Xv6.Spinlock
import Mathlib.Data.Fintype.Basic

/- Interrupt state across swtch: acquire and release of kernel/spinlock.c and the switches of
   kernel/proc.c on any number of CPUs. noff and intena belong to a CPU; sched keeps intena in its
   frame. yield is acquire, sched and release of p->lock, and sleep on lk is acquire of p->lock,
   release of lk, sched, release of p->lock and acquire of lk. -/
namespace Xv6Intr
open Xv6Spinlock Runs
set_option linter.unusedSectionVars false

/-- `entered` is history: whether interrupts were on when the thread of a process took the first
    lock of its nesting. -/
structure State (C P L : Type) where
  cpu : C → Cpu
  runs : C → Option P
  -- the locks with lk->cpu at this CPU
  held : C → List L
  -- the local variable of sched
  intena : P → Bool
  -- its context is at forkret
  fresh : P → Bool
  entered : P → Bool

inductive Event (C P L : Type) where
  | acquire (c : C) (l : L)
  | release (c : C) (l : L)
  -- intr_on, intr_off, a trap or a return from one
  | intr (c : C) (on : Bool)
  | sched (c : C)
  | swtch (c : C) (p : P)
  -- allocproc sets the context
  | alloc (p : P)

section
variable {C P L : Type} [DecidableEq C] [Fintype C] [DecidableEq P] [DecidableEq L] (plock : P → L)

namespace State

/-- The CPU runs a process that has not returned from forkret's release. -/
def starting (s : State C P L) (c : C) : Bool := (s.runs c).any s.fresh

/-- The CPUs once p goes on at CPU c: after a swtch in sched, p sets intena. -/
def resumed (s : State C P L) (c : C) (p : P) : C → Cpu :=
  if s.fresh p then s.cpu else Function.update s.cpu c { s.cpu c with intena := s.intena p }

def next (s : State C P L) : Event C P L → Option (Except String (State C P L))
  | .acquire c l =>
      if s.starting c then none
      else if l ∈ s.held c then some (.error "acquire")
      else if ∃ d, l ∈ s.held d then none
      else some (.ok { s with
        cpu := Function.update s.cpu c (s.cpu c).pushOff
        held := Function.update s.held c (l :: s.held c)
        entered := fun p => if s.runs c = some p ∧ s.held c = [] then (s.cpu c).intr else s.entered p })
  | .release c l =>
      if l ∉ s.held c then some (.error "release")
      else match (s.cpu c).popOff with
        | .error msg => some (.error msg)
        | .ok cpu => some (.ok { s with
            cpu := Function.update s.cpu c cpu
            held := Function.update s.held c ((s.held c).erase l)
            fresh := fun p => if s.runs c = some p ∧ (s.held c).erase l = [] then false else s.fresh p })
  | .intr c on =>
      if s.starting c ∨ s.held c ≠ [] then none
      else some (.ok { s with cpu := Function.update s.cpu c { s.cpu c with intr := on } })
  | .sched c =>
      match s.runs c with
      | none => none
      | some p =>
          if s.fresh p then none
          else if plock p ∉ s.held c then some (.error "sched p->lock")
          else if (s.cpu c).noff ≠ 1 then some (.error "sched locks")
          else if (s.cpu c).intr then some (.error "sched interruptible")
          else some (.ok { s with
            runs := Function.update s.runs c none
            intena := Function.update s.intena p (s.cpu c).intena })
  | .swtch c p =>
      -- the scheduler holds p->lock alone
      if s.runs c = none ∧ s.held c = [plock p] ∧ ∀ d, s.runs d ≠ some p then some (.ok { s with
        runs := Function.update s.runs c (some p)
        cpu := s.resumed c p })
      else none
  | .alloc p =>
      if ∀ d, s.runs d ≠ some p then some (.ok { s with fresh := Function.update s.fresh p true })
      else none

def Step (s : State C P L) (e : Event C P L) (t : State C P L) : Prop := s.next plock e = some (.ok t)

/-- Every CPU is in its scheduler, and no process has run. -/
structure Boot (s : State C P L) : Prop where
  depth : ∀ c, (s.cpu c).noff = 0
  idle : ∀ c, s.runs c = none
  held : ∀ c, s.held c = []
  fresh : ∀ p, s.fresh p = true

/-- intena is that of the thread: on its CPU while it holds a lock, in the frame of sched else. -/
structure Inv (s : State C P L) : Prop where
  depth : ∀ c, (s.cpu c).noff = (s.held c).length
  quiet : ∀ c, (s.cpu c).Quiet
  once : ∀ c d p, s.runs c = some p → s.runs d = some p → c = d
  running : ∀ c p, s.runs c = some p → s.fresh p = false → s.held c ≠ [] →
    (s.cpu c).intena = s.entered p
  waiting : ∀ p, (∀ c, s.runs c ≠ some p) → s.fresh p = false → s.intena p = s.entered p

end State
open State

variable {plock} {s t : State C P L} {c : C}

/-- The thread on one CPU changes the CPU, its locks and its own marks. -/
theorem inv_local {cpu : Cpu} {held : List L} {fresh entered : P → Bool} (inv : s.Inv)
    (depth : cpu.noff = held.length) (quiet : cpu.Quiet)
    (others : ∀ p, s.runs c ≠ some p → fresh p = s.fresh p ∧ entered p = s.entered p)
    (own : ∀ p, s.runs c = some p → fresh p = false → held ≠ [] → cpu.intena = entered p) :
    Inv { s with cpu := Function.update s.cpu c cpu, held := Function.update s.held c held, fresh, entered } where
  depth d := by
    by_cases same : d = c
    · subst d
      simpa using depth
    · simpa [same] using inv.depth d
  quiet d := by
    by_cases same : d = c
    · subst d
      simpa using quiet
    · simpa [same] using inv.quiet d
  once := inv.once
  running d p runs started locks := by
    by_cases same : d = c
    · subst d
      simp only [Function.update_self] at locks ⊢
      exact own p runs started locks
    have away : s.runs c ≠ some p := fun here => same (inv.once d c p runs here)
    simp only [Function.update_of_ne same, (others p away).1, (others p away).2] at started locks ⊢
    exact inv.running d p runs started locks
  waiting p off started := by
    obtain ⟨sameFresh, sameEntered⟩ := others p (off c)
    simp only [sameFresh, sameEntered] at started ⊢
    exact inv.waiting p off started

theorem inv_acquire {l : L} (inv : s.Inv) (step : s.Step plock (.acquire c l) t) : t.Inv := by
  simp only [Step, next, Option.ite_none_left_eq_some] at step
  obtain ⟨starting, step⟩ := step
  split_ifs at step with again taken
  · cases step
  cases step
  refine inv_local inv (by simp [inv.depth c]) (Cpu.quiet_pushOff _) ?_ ?_
  · intro p away
    simp [away]
  intro p runs started _
  by_cases first : s.held c = []
  · have top : (s.cpu c).noff = 0 := by rw [inv.depth c, first, List.length_nil]
    simp [runs, first, Cpu.pushOff, top]
  have deep : (s.cpu c).noff ≠ 0 := by rwa [inv.depth c, ne_eq, List.length_eq_zero_iff]
  simpa [runs, first, Cpu.pushOff, deep] using inv.running c p runs started first

/-- pop_off does not panic, and the last release gives the thread its interrupts back. -/
theorem release_ok (plock : P → L) {l : L} (inv : s.Inv) (mine : l ∈ s.held c) :
    ∃ t, s.Step plock (.release c l) t ∧ t.Inv ∧
      ∀ p, s.runs c = some p → s.fresh p = false → t.held c = [] → (t.cpu c).intr = s.entered p := by
  have some := List.length_pos_of_mem mine
  have depth := inv.depth c
  have popped := Cpu.popOff_eq (inv.quiet c) (by omega)
  have rest := List.length_erase_of_mem mine
  refine ⟨_, by simp only [Step, next, mine, not_true_eq_false, if_false, popped]; rfl, ?_, ?_⟩
  · refine inv_local inv ?_ (Cpu.quiet_popped _) ?_ ?_
    · rw [rest, ← depth]
      rfl
    · intro p away
      simp [away]
    intro p runs started locks
    simp only [runs, locks, and_false, if_false] at started
    exact inv.running c p runs started (List.ne_nil_of_mem mine)
  intro p runs started last
  simp only [Function.update_self] at last ⊢
  have one : (s.cpu c).noff - 1 = 0 := by rw [depth, ← rest, last, List.length_nil]
  simp [Cpu.popped, one, inv.running c p runs started (List.ne_nil_of_mem mine)]

theorem inv_intr {on : Bool} (inv : s.Inv) (step : s.Step plock (.intr c on) t) : t.Inv := by
  simp only [Step, next, Option.ite_none_left_eq_some, not_or, not_not] at step
  obtain ⟨⟨-, none⟩, step⟩ := step
  cases step
  have depth : Cpu.noff { s.cpu c with intr := on } = (s.held c).length := inv.depth c
  have quiet : Cpu.Quiet { s.cpu c with intr := on } := by
    intro deep
    simp [inv.depth c, none] at deep
  have kept := inv_local (c := c) inv depth quiet (fun _ _ => ⟨rfl, rfl⟩)
    fun _ _ _ locks => absurd none locks
  simpa using kept

theorem inv_sched (inv : s.Inv) (step : s.Step plock (.sched c) t) : t.Inv := by
  simp only [Step, next] at step
  cases here : s.runs c with
  | none => simp [here] at step
  | some p =>
    simp only [here, Option.ite_none_left_eq_some] at step
    obtain ⟨started, step⟩ := step
    split_ifs at step with mine one on <;> cases step
    have left {d : C} {q : P} : Function.update s.runs c none d = some q ↔ d ≠ c ∧ s.runs d = some q := by
      by_cases same : d = c <;> simp [same]
    refine ⟨inv.depth, inv.quiet, ?_, ?_, ?_⟩
    · intro d e q first snd
      exact inv.once d e q (left.mp first).2 (left.mp snd).2
    · intro d q runs
      exact inv.running d q (left.mp runs).2
    intro q off started'
    by_cases same : q = p
    · subst q
      simpa using inv.running c p here started' (List.ne_nil_of_mem mine)
    simp only [Function.update_of_ne same]
    refine inv.waiting q ?_ started'
    intro d runs
    apply off d
    refine left.mpr ⟨?_, runs⟩
    rintro rfl
    exact same (Option.some.inj (runs.symm.trans here))

theorem resumed_same (c d : C) (p : P) :
    (s.resumed c p d).noff = (s.cpu d).noff ∧ (s.resumed c p d).intr = (s.cpu d).intr := by
  by_cases first : s.fresh p
  · simp [resumed, first]
  by_cases here : d = c
  · subst d
    simp [resumed, first]
  · simp [resumed, first, here]

theorem inv_swtch {p : P} (inv : s.Inv) (step : s.Step plock (.swtch c p) t) : t.Inv := by
  simp only [Step, next, Option.ite_none_right_eq_some] at step
  obtain ⟨⟨idle, only, off⟩, step⟩ := step
  cases step
  have enters {d : C} {q : P} : Function.update s.runs c (some p) d = some q ↔
      d = c ∧ q = p ∨ d ≠ c ∧ s.runs d = some q := by
    by_cases same : d = c <;> simp [same, eq_comm]
  refine ⟨?_, ?_, ?_, ?_, ?_⟩
  · intro d
    rw [(resumed_same c d p).1]
    exact inv.depth d
  · intro d deep
    rw [(resumed_same c d p).1] at deep
    rw [(resumed_same c d p).2]
    exact inv.quiet d deep
  · intro d e q first snd
    rcases enters.mp first with ⟨rfl, rfl⟩ | ⟨other, runs⟩
    · rcases enters.mp snd with ⟨rfl, -⟩ | ⟨-, runs⟩
      · rfl
      · exact absurd runs (off e)
    rcases enters.mp snd with ⟨-, rfl⟩ | ⟨-, runs'⟩
    · exact absurd runs (off d)
    · exact inv.once d e q runs runs'
  · intro d q runs started locks
    rcases enters.mp runs with ⟨rfl, rfl⟩ | ⟨other, runs⟩
    · have old : s.fresh q = false := started
      simpa [resumed, old] using inv.waiting q off old
    have apart := inv.running d q runs started locks
    by_cases first : s.fresh p
    · simpa [resumed, first] using apart
    · simpa [resumed, first, other] using apart
  intro q off' started
  refine inv.waiting q ?_ started
  intro d runs
  refine off' d (enters.mpr (.inr ⟨?_, runs⟩))
  rintro rfl
  simp [idle] at runs

theorem inv_alloc {p : P} (inv : s.Inv) (step : s.Step plock (.alloc p) t) : t.Inv := by
  simp only [Step, next, Option.ite_none_right_eq_some] at step
  obtain ⟨off, step⟩ := step
  cases step
  have older {q : P} (started : Function.update s.fresh p true q = false) : s.fresh q = false := by
    by_cases same : q = p
    · simp [same] at started
    · simpa [same] using started
  refine ⟨inv.depth, inv.quiet, inv.once, ?_, ?_⟩
  · intro d q runs started
    exact inv.running d q runs (older started)
  intro q off' started
  exact inv.waiting q off' (older started)

theorem inv_step (inv : s.Inv) (e : Event C P L) (step : s.Step plock e t) : t.Inv := by
  cases e with
  | acquire c l => exact inv_acquire inv step
  | release c l =>
    by_cases mine : l ∈ s.held c
    · obtain ⟨t', step', inv', -⟩ := release_ok plock inv mine
      cases step.symm.trans step'
      exact inv'
    · simp [Step, next, mine] at step
  | intr c on => exact inv_intr inv step
  | sched c => exact inv_sched inv step
  | swtch c p => exact inv_swtch inv step
  | alloc p => exact inv_alloc inv step

theorem inv_boot (boot : s.Boot) : s.Inv where
  depth c := by rw [boot.depth, boot.held, List.length_nil]
  quiet c deep := absurd (boot.depth c) (Nat.ne_of_gt deep)
  once c d p runs := by simp [boot.idle] at runs
  running c p runs := by simp [boot.idle] at runs
  waiting p _ started := by simp [boot.fresh] at started

/-- After every run, a release of a lock that the CPU holds does not panic in pop_off; where it is the
    last one of a process's thread past forkret, interrupts come on exactly if they were on when the
    thread took the first lock of this nesting. -/
theorem interrupts_follow_thread {boot : State C P L} {es : List (Event C P L)} (start : boot.Boot)
    (run : Run (Step plock) boot es s) (c : C) (l : L) (mine : l ∈ s.held c) :
    ∃ t, s.Step plock (.release c l) t ∧ ∀ p, s.runs c = some p → s.fresh p = false → t.held c = [] →
      ((t.cpu c).intr = true ↔ s.entered p = true) := by
  have inv : s.Inv := run_invariant Inv (inv_boot start) (fun _ e _ before => inv_step before e) run
  obtain ⟨t, step, -, last⟩ := release_ok plock inv mine
  refine ⟨t, step, ?_⟩
  intro p runs started none
  rw [last p runs started none]

end

/- Process () with its lock () yields on CPU false with interrupts on, and goes on at CPU true, where
   they were off. -/
def twoCpus : State Bool Unit Unit :=
  ⟨fun _ => ⟨0, false, false⟩, fun _ => none, fun _ => [], fun _ => false, fun _ => true, fun _ => false⟩

def migrates : List (Event Bool Unit Unit) :=
  [.acquire false (), .swtch false (), .release false (), .intr false true, .acquire false (),
    .sched false, .release false (), .acquire true (), .swtch true ()]

def nextOk (s : State Bool Unit Unit) (e : Event Bool Unit Unit) : Option (State Bool Unit Unit) :=
  (s.next id e).bind Except.toOption

theorem nextOk_step (s : State Bool Unit Unit) (e : Event Bool Unit Unit) (t : State Bool Unit Unit)
    (done : nextOk s e = some t) : s.Step id e t := by
  obtain ⟨res, step, ok⟩ := Option.bind_eq_some_iff.mp done
  cases res with
  | error msg => cases ok
  | ok t' =>
    cases ok
    exact step

theorem interrupts_follow_migration : ∃ t, (after nextOk twoCpus migrates).Step id (.release true ()) t ∧
    (after nextOk twoCpus migrates).entered () = true ∧ (t.held true = [] → (t.cpu true).intr = true) := by
  have run : Run (State.Step id) twoCpus migrates (after nextOk twoCpus migrates) :=
    run_after nextOk_step (by decide +kernel)
  have boot : twoCpus.Boot := ⟨fun _ => rfl, fun _ => rfl, fun _ => rfl, fun _ => rfl⟩
  obtain ⟨t, step, last⟩ := interrupts_follow_thread boot run true () (by decide +kernel)
  have entered : (after nextOk twoCpus migrates).entered () = true := by decide +kernel
  refine ⟨t, step, entered, ?_⟩
  intro none
  exact (last () (by decide +kernel) (by decide +kernel) none).mpr entered

end Xv6Intr
