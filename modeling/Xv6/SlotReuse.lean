import Xv6.PageOwners

/- The fields of process slots: what a new process finds in its slot, and what kill, wait and sys_clone make
   of the table. -/
namespace Xv6Table
open Outcome Xv6Vm Xv6 Runs

section
variable {n N : Nat} {s s₀ t : State n N} {e : Event n} {p q : Fin n} {kernel : List (Fin N)}

/-- An unused slot has no residue, and a zombie no open file. -/
structure Clean (x : Proc n N) : Prop where
  unused : x.state = .unused → x.pid = 0 ∧ x.killed = false ∧ x.xstate = 0 ∧ x.chan = none ∧ x.threadCount = 0 ∧
    x.ofile = fun _ => none
  zombie : x.state = .zombie → x.ofile = fun _ => none

/-- No kill reaches an unused slot, and no process that has made a thread is reaped. -/
def Careful (s : State n N) (e : Event n) : Prop :=
  (e.call = .kill 0 → ∀ q, (s.proc q).state ≠ .unused) ∧
  ∀ addr copied, e.call = .wait addr copied → ∀ q, (s.proc q).parent = some e.p → (s.proc q).state = .zombie →
    (s.proc q).threadCount = 0

theorem nudged_state {x y : Proc n N} (nudged : Nudged x y) : y.ofile = x.ofile ∧ (y.state = x.state ∧
    y.pid = x.pid ∧ y.killed = x.killed ∧ y.xstate = x.xstate ∧ y.chan = x.chan ∧ y.threadCount = x.threadCount ∨
    y.state = .runnable) := by
  obtain ⟨parent, rfl | ⟨_, rfl⟩⟩ := nudged
  · exact ⟨rfl, .inl ⟨rfl, rfl, rfl, rfl, rfl, rfl⟩⟩
  · exact ⟨rfl, .inr rfl⟩

theorem clean_busy {x : Proc n N} (unused : x.state ≠ .unused) (zombie : x.state ≠ .zombie) : Clean x :=
  ⟨fun absurd => (unused absurd).elim, fun absurd => (zombie absurd).elim⟩

theorem change_clean (careful : Careful s e) {y : Proc n N} (change : Change s e (s.proc q) y)
    (clean : Clean (s.proc q)) : Clean y := by
  generalize prev : s.proc q = x at change clean
  have running : x.state = .running → ∀ y : Proc n N, y.state = x.state → Clean y := by
    intro run y same
    refine clean_busy ?_ ?_ <;> rw [same, run] <;> nofun
  cases change with
  | same => exact clean
  | failed unused regs =>
    obtain ⟨_, _, _, _, count, files⟩ := clean.unused unused
    exact ⟨fun _ => ⟨rfl, rfl, rfl, rfl, count, files⟩, nofun⟩
  | forked | cloned => exact clean_busy nofun nofun
  | counted run call success =>
    apply running run _
    unfold Proc.countThread
    split <;> rfl
  | memory run table sz regs => exact running run _ rfl
  | user run regs ofile => exact running run _ rfl
  | state inUse next =>
    rcases next with rfl | rfl
    · exact clean_busy nofun nofun
    · exact clean_busy nofun nofun
  | awake run => exact running run _ rfl
  | asleep => exact clean_busy nofun nofun
  | reaped zombie child call =>
    have count := careful.2 _ _ call q (prev ▸ child) (prev ▸ zombie)
    rw [prev] at count
    exact ⟨fun _ => ⟨rfl, rfl, rfl, rfl, count, clean.zombie zombie⟩, nofun⟩
  | exits run nudged status => exact ⟨nofun, fun _ => (nudged_state nudged).1⟩
  | nudged nudged =>
    obtain ⟨files, ⟨state, pid, killed, xstate, chan, count⟩ | state⟩ := nudged_state nudged
    · refine ⟨fun unused => ?_, fun zombie => ?_⟩
      · rw [pid, killed, xstate, chan, count, files]
        exact clean.unused (state ▸ unused)
      rw [files]
      exact clean.zombie (state ▸ zombie)
    · refine clean_busy ?_ ?_ <;> rw [state] <;> nofun
  | killed pid call has =>
    have inUse : x.state ≠ .unused := by
      intro unused
      have zero := (clean.unused unused).1
      rw [has] at zero
      rw [zero] at call
      exact careful.1 call q (prev ▸ unused)
    unfold Proc.kill
    refine ⟨fun unused => ?_, fun zombie => clean.zombie ?_⟩
    · by_cases sleeps : x.state = .sleeping
      · simp only [sleeps, if_true] at unused
        cases unused
      simp only [sleeps, if_false] at unused
      exact (inUse unused).elim
    by_cases sleeps : x.state = .sleeping
    · simp only [sleeps, if_true] at zombie
      cases zombie
    simp only [sleeps, if_false] at zombie
    exact zombie

theorem booted_clean (booted : Booted kernel s₀) (q : Fin n) : Clean (s₀.proc q) := by
  rcases booted_fields booted q with zero | ⟨pid, frame, root, regs, made⟩
  · rw [zero]
    exact ⟨fun _ => ⟨rfl, rfl, rfl, rfl, rfl, rfl⟩, nofun⟩
  rw [made]
  exact clean_busy nofun nofun

theorem dupFiles_empty {x : Proc n N} (files : x.ofile = fun _ => none) (ofile : Fin nofile → Option Nat) :
    (x.dupFiles ofile).ofile = ofile := by
  funext i
  simp only [Proc.dupFiles, files]
  cases ofile i <;> rfl

theorem countThread_ofile (x : Proc n N) : x.countThread.ofile = x.ofile := by
  unfold Proc.countThread
  split <;> rfl

section
variable [NeZero n]

/-- A new process finds nothing of the one that had its slot. -/
theorem new_process_clean (booted : Booted kernel s₀) {es : List (Event n)} (run : TableRun Careful s₀ es s)
    (call : e.call = .fork ∨ ∃ junk, e.call = .clone junk) (step : next s e = some t)
    (unused : (s.proc q).state = .unused) (created : (t.proc q).state ≠ .unused) :
    (t.proc q).killed = false ∧ (t.proc q).xstate = 0 ∧ (t.proc q).chan = none ∧ (t.proc q).threadCount = 0 ∧
      (t.proc q).ofile = (s.proc e.p).ofile := by
  have clean := run_each Clean (booted_clean booted) (fun s e careful q y => change_clean careful) run q
  obtain ⟨_, killed, xstate, chan, count, files⟩ := clean.unused unused
  have change := event_changes step q
  generalize s.proc q = x at change unused killed xstate chan count files
  generalize t.proc q = y at change created
  cases change with
  | forked _ _ pid frame root => exact ⟨killed, xstate, chan, rfl, dupFiles_empty files _⟩
  | cloned _ _ _ first size pid frame root =>
    refine ⟨killed, xstate, chan, count, (dupFiles_empty files _).trans ?_⟩
    exact countThread_ofile _
  | same => exact (created unused).elim
  | failed => exact (created rfl).elim
  | counted running | memory running | user running
  | awake running | asleep running | exits running => exact absurd (running.symm.trans unused) nofun
  | state inUse =>
    rcases inUse with running | runnable
    · exact absurd (running.symm.trans unused) nofun
    · exact absurd (runnable.symm.trans unused) nofun
  | reaped => exact (created rfl).elim
  | nudged nudged =>
    obtain ⟨parent, rfl | ⟨sleeps, _⟩⟩ := nudged
    · exact (created unused).elim
    · exact absurd (sleeps.symm.trans unused) nofun
  | killed pid kills =>
    rcases call with forks | ⟨junk, clones⟩
    · rw [kills] at forks
      cases forks
    rw [kills] at clones
    cases clones

def quiet (s : State n N) (e : Event n) : Option (State n N) :=
  match e.call with
  | .kill _ | .wait _ _ => none
  | _ => next s e

theorem quiet_step (s : State n N) (e : Event n) (t : State n N) (step : quiet s e = some t) :
    Guarded (fun s e t => next s e = some t) Careful s e t := by
  unfold quiet at step
  split at step
  · cases step
  · cases step
  case h_3 kills waits =>
  exact ⟨⟨fun call => (kills _ call).elim, fun addr copied call => (waits _ _ call).elim⟩, step⟩

end

theorem new_process_clean_forked : ∃ t, next (after quiet bootState [does 0 .schedule]) (does 0 .fork) = some t ∧
    (t.proc 1).killed = false ∧ (t.proc 1).xstate = 0 := by
  have run : TableRun Careful bootState [does 0 .schedule] (after quiet bootState [does 0 .schedule]) :=
    run_after quiet_step (by decide +kernel)
  have forks : (next (after quiet bootState [does 0 .schedule]) (does 0 .fork)).any
      (fun t => decide ((t.proc 1).state ≠ .unused)) = true := by decide +kernel
  obtain ⟨t, step, created⟩ := (Option.any_eq_true _ _).mp forks
  have clean := new_process_clean booted_bootState run (Or.inl rfl) step (by decide +kernel)
    (of_decide_eq_true created)
  exact ⟨t, step, clean.1, clean.2.1⟩

/-- kill of pid 0 marks an unused slot, and the process that fork puts there is killed from the start. -/
theorem born_killed : ∃ s t, Booted kernelPages bootState ∧
    TableRun (fun _ _ => True) bootState [does 0 .schedule, does 0 (.kill 0)] s ∧
    next s (does 0 .fork) = some t ∧ (s.proc 1).state = .unused ∧ (t.proc 1).state = .runnable ∧
    (t.proc 1).killed = true := by
  have forks : (next (after next bootState [does 0 .schedule, does 0 (.kill 0)]) (does 0 .fork)).any
      (fun t => decide ((t.proc 1).state = .runnable ∧ (t.proc 1).killed = true)) = true := by decide +kernel
  obtain ⟨t, step, born⟩ := (Option.any_eq_true _ _).mp forks
  have facts := of_decide_eq_true born
  exact ⟨_, t, booted_bootState, run_after (fun _ _ _ step => ⟨trivial, step⟩) (by decide +kernel), step,
    by decide +kernel, facts.1, facts.2⟩

/- kill. -/

theorem kill_known (pid : Int32) (slots : List (Fin n)) (s : State n N) : kill pid slots s =
    match slots.find? fun q => decide ((s.proc q).pid = pid) with
    | some q => .ok (0, s.set q Proc.kill)
    | none => .ok (-1, s) := by
  induction slots with
  | nil => rfl
  | cons q rest ih =>
    change (if (s.proc q).pid = pid then _ else _ : K n N Int32) s = _
    by_cases has : (s.proc q).pid = pid
    · simp only [List.find?_cons, has, decide_true, if_true]
      rfl
    simp only [List.find?_cons, has, decide_false, if_false]
    exact ih

theorem unused_pid [NeZero n] (booted : Booted kernel s₀) {es : List (Event n)}
    (run : TableRun (fun _ _ => True) s₀ es s) : ∀ q, (s.proc q).state = .unused → (s.proc q).pid = 0 := by
  refine run_each (fun x => x.state = .unused → x.pid = 0) (fun q => ?_) ?_ run
  · exact fun unused => ((booted_clean booted q).unused unused).1
  intro s e _ q y change zero
  generalize s.proc q = x at change zero
  cases change with
  | same => exact zero
  | failed | reaped => exact fun _ => rfl
  | forked | cloned | asleep | exits => exact nofun
  | counted running =>
    intro unused
    refine absurd (?_ : Xv6Proc.ProcState.running = .unused) nofun
    rw [← running, ← unused, Proc.countThread]
    split <;> rfl
  | memory running | user running | awake running => exact fun unused => by cases running.symm.trans unused
  | state inUse next =>
    rcases next with rfl | rfl
    · rintro ⟨⟩
    · rintro ⟨⟩
  | nudged nudged =>
    obtain ⟨parent, rfl | ⟨_, rfl⟩⟩ := nudged
    · exact zero
    · rintro ⟨⟩
  | killed pid call has =>
    intro unused
    apply zero
    unfold Proc.kill at unused
    by_cases sleeps : x.state = .sleeping
    · simp only [sleeps, if_true] at unused
      cases unused
    simp only [sleeps, if_false] at unused
    exact unused

theorem waitScan_known (p : Fin n) (addr : UInt64) (copied havekids : Bool) (slots : List (Fin n)) (s : State n N) :
    waitScan p addr copied havekids slots s =
      match slots.find? fun q => decide ((s.proc q).parent = some p ∧ (s.proc q).state = .zombie) with
      | some q => (if addr ≠ 0 ∧ copied = false then pure (.inl (-1)) else do
          freeproc q
          pure (.inl (s.proc q).pid) : K n N (Int32 ⊕ Bool)) s
      | none => .ok (.inr (havekids || slots.any fun q => decide ((s.proc q).parent = some p)), s) := by
  induction slots generalizing havekids with
  | nil =>
    simp only [List.find?_nil, List.any_nil, Bool.or_false]
    rfl
  | cons q rest ih =>
    change (if (s.proc q).parent = some p then _ else _ : K n N (Int32 ⊕ Bool)) s = _
    by_cases child : (s.proc q).parent = some p
    · by_cases zombie : (s.proc q).state = .zombie
      · simp only [List.find?_cons, child, zombie, and_self, decide_true, if_true]
      simp only [List.find?_cons, child, zombie, and_false, decide_false, decide_true, if_true, if_false,
        List.any_cons, Bool.true_or, Bool.or_true]
      rw [ih true]
      simp only [Bool.true_or]
    simp only [List.find?_cons, child, false_and, decide_false, if_false, List.any_cons, Bool.false_or]
    exact ih havekids

theorem waitPass_known (p : Fin n) (addr : UInt64) (copied : Bool) (s : State n N) :
    waitPass p addr copied s =
      match (List.finRange n).find? fun q => decide ((s.proc q).parent = some p ∧ (s.proc q).state = .zombie) with
      | some q => (if addr ≠ 0 ∧ copied = false then pure (some (-1)) else do
          freeproc q
          pure (some (s.proc q).pid) : K n N (Option Int32)) s
      | none =>
        if ((∀ q, (s.proc q).parent ≠ some p) ∨ (s.proc p).killed = true) ∧ (s.proc p).youAThread = false then
          .ok (some (-1), s)
        else .ok (none, s.set p (Proc.sleeps p)) := by
  have scan := waitScan_known p addr copied false (List.finRange n) s
  change (waitScan p addr copied false (List.finRange n) s >>= _) = _
  rw [scan]
  cases (List.finRange n).find? fun q => decide ((s.proc q).parent = some p ∧ (s.proc q).state = .zombie) with
  | some q =>
    by_cases fails : addr ≠ 0 ∧ copied = false
    · simp only [if_pos fails]
      rfl
    simp only [if_neg fails]
    change (freeproc q s >>= _) >>= _ = freeproc q s >>= _
    rw [bind_assoc]
    rfl
  | none =>
    have condition : ((!(false || (List.finRange n).any fun q => decide ((s.proc q).parent = some p)) ||
        (s.proc p).killed) = true ∧ (s.proc p).youAThread = false) ↔
        ((∀ q, (s.proc q).parent ≠ some p) ∨ (s.proc p).killed = true) ∧ (s.proc p).youAThread = false := by
      simp
    change (if _ ∧ _ then pure (some (-1)) else _ : K n N (Option Int32)) s = _
    by_cases fails : ((∀ q, (s.proc q).parent ≠ some p) ∨ (s.proc p).killed = true) ∧ (s.proc p).youAThread = false
    · rw [if_pos fails, if_pos (condition.mpr fails)]
      rfl
    rw [if_neg fails, if_neg fun sleeps => fails (condition.mp sleeps)]
    rfl

example : ((after next bootState [does 0 .schedule, does 0 .fork, does 1 .schedule, does 1 (.exit 3),
    does 0 (.wait 0 true)]).proc 1).state = .unused := by
  decide +kernel

def mourning : State nproc 64 :=
  after next bootState [does 0 .schedule, does 0 .fork, does 1 .schedule, does 1 (.exit 3)]

def InRegion (stack size sp : UInt64) : Prop := stack.toNat < sp.toNat ∧ sp.toNat ≤ stack.toNat + size.toNat

instance (stack size sp : UInt64) : Decidable (InRegion stack size sp) :=
  inferInstanceAs (Decidable (_ ∧ _))

/-- The stack pointer that clone computes from the word it was passed as the stack. -/
def childSp (x : Proc n N) (junk : UInt64) : UInt64 :=
  junk - (x.countThread.threadCount * (a1 x.regs).toUInt32.toInt32).toInt64.toUInt64

theorem countThread_rest (x : Proc n N) : x.countThread.sz = x.sz ∧ x.countThread.regs = x.regs := by
  unfold Proc.countThread
  split <;> exact ⟨rfl, rfl⟩

def stackRegs : Xv6Proc.Trapframe := ⟨0, 0x4000, fun i => if i = 13 then 0x1000 else 0⟩

def asks (p : Fin nproc) : Event nproc := does p (.user stackRegs fun _ => none)

end

end Xv6Table
