import Xv6.LockExact

/- Runs of all CPUs: what each CPU holds fits the place it is at. -/
namespace Xv6Proc
open LockProg Prog Xv6 Xv6Spinlock Runs
set_option linter.unusedSectionVars false

def threadless : Assumed := ⟨fun name => name = "clone", fun _ _ => True⟩

def Ends (p : ProcId) (k : K Unit) (held : Finset Lock) (n : Nat) : Prop :=
  wp (.proc p) threadless k held n (fun _ h m => h = ∅ ∧ m = 0)

def PcFits (held : Finset Lock) (n : Nat) : CpuPc → Prop
  | .scan _ | .user _ => held = ∅ ∧ n = 0
  | .look p | .back p => held = {Lock.proc p} ∧ n = 1
  | .run p k => Ends p k held n

section
variable {C : Type} [DecidableEq C]
variable {m : Machine C} {c : C} {held : Finset Lock} {cpu : Cpu} {l : Lock} {pc : CpuPc}

def Held (m : Machine C) (c : C) (held : Finset Lock) : Prop := ∀ l, l ∈ held ↔ m.owner l = some c

/-- What a CPU holds, its depth and its place fit together. -/
structure Fits (m : Machine C) (c : C) (held : Finset Lock) (cpu : Cpu) (pc : CpuPc) : Prop where
  owns : Held m c held
  depth : held.card ≤ cpu.noff
  place : PcFits held cpu.noff pc
  quiet : cpu.Quiet

structure Safe (m : Machine C) : Prop where
  cpus : ∀ c, ∃ held, Fits m c held (m.cpus c).cpu (m.cpus c).pc
  contexts : ∀ p, Ends p (m.context p) {Lock.proc p} 1
  sound : ∀ msg, m.panicked = some msg → msg ∉ lockPanics

theorem ends_forkret (p : ProcId) : Ends p (forkret p) {Lock.proc p} 1 := by
  have free : Lock.proc p ∉ (∅ : Finset Lock) := by simp
  apply myproc_then (by simp)
  exact wp_release free (by simp) ⟨rfl, rfl⟩

theorem under_empty : Under ∅ 0 := ⟨by simp, by simp⟩

theorem ends_body (p : ProcId) (why : Trap) : Ends p (why.body p) ∅ 0 := by
  have empty : ∀ l : Lock, l ∉ (∅ : Finset Lock) := by simp
  cases why with
  | timer => exact keeps_yield p
  | fork =>
    exact keeps_then (keeps_fork under_empty p noProc_empty (empty _)) fun _ => ⟨rfl, rfl⟩
  | clone stack size =>
    have spared : wp (.proc p) threadless (Xv6Proc.clone p stack size) ∅ 0
        (fun _ h m => h = ∅ ∧ m = 0) := by
      apply wp_clone under_empty p stack size noProc_empty ⟨rfl, rfl⟩
      intro r np passes
      exact absurd rfl passes
    exact keeps_then spared fun _ => ⟨rfl, rfl⟩
  | wait addr turns => exact keeps_then (keeps_wait p addr turns) fun _ => ⟨rfl, rfl⟩
  | kill pid => exact keeps_then (keeps_kill (by simp) noProc_empty _ _) fun _ => ⟨rfl, rfl⟩
  | wakeup chan lk =>
    apply acquire_then (empty _) (by simp)
    have noProc : NoProc (insert (Lock.other lk) ∅) := noProc_single (by simp)
    apply keeps_then (keeps_wakeup (by simp) noProc _ _ _)
    intro _
    exact wp_release (empty _) (by simp) ⟨rfl, rfl⟩
  | sleep chan lk =>
    apply acquire_then (empty _) (by simp)
    apply keeps_then (keeps_sleep p chan (by simp))
    intro _
    exact wp_release (empty _) (by simp) ⟨rfl, rfl⟩
  | exit status => exact keeps_exit p status

theorem ends_usertrap (p : ProcId) (why : Trap) : Ends p (usertrap p why) ∅ 0 := by
  refine ⟨by simp, ?_⟩
  apply myproc_then (by simp)
  have on : Keeps (.proc p) threadless (setIntr true (pure ()) : K Unit) ∅ 0 := ⟨fun _ => rfl, rfl, rfl⟩
  exact keeps_then (keeps_onlyIf on) fun _ => ends_body p why

theorem ends_kerneltrap (p : ProcId) {k : K Unit} (rest : Ends p k ∅ 0) : Ends p (kerneltrap p k) ∅ 0 := by
  refine ⟨by simp, ?_⟩
  apply myproc_then (by simp)
  apply keeps_then keeps_peek
  intro t
  apply keeps_then (keeps_onlyIf (keeps_yield p))
  intro _
  exact ⟨fun _ => rfl, rest⟩

theorem safe_move {m m' : Machine C} (safe : Safe m) (cpus : m'.cpus = Function.update m.cpus c ⟨cpu, pc⟩)
    (others : ∀ d, d ≠ c → ∀ l, m'.owner l = some d ↔ m.owner l = some d)
    (fits : Fits m' c held cpu pc) (contexts : ∀ p, Ends p (m'.context p) {Lock.proc p} 1)
    (panicked : m'.panicked = m.panicked) : Safe m' where
  cpus := by
    intro d
    by_cases same : d = c
    · subst d
      rw [cpus, Function.update_self]
      exact ⟨held, fits⟩
    obtain ⟨own, other⟩ := safe.cpus d
    rw [cpus, Function.update_of_ne same]
    refine ⟨own, ?_, other.depth, other.place, other.quiet⟩
    intro l
    rw [others d same l]
    exact other.owns l
  contexts := contexts
  sound := by
    rw [panicked]
    exact safe.sound

theorem safe_goto_with {context : ProcId → K Unit} (table : Table) (safe : Safe m)
    (fits : Fits m c held cpu pc) (contexts : ∀ p, Ends p (context p) {Lock.proc p} 1) :
    Safe { m.goto c cpu pc with table := table, context := context } :=
  safe_move safe rfl (fun _ _ _ => Iff.rfl) ⟨fits.owns, fits.depth, fits.place, fits.quiet⟩
    contexts rfl

theorem safe_goto (safe : Safe m) (fits : Fits m c held cpu pc) : Safe (m.goto c cpu pc) :=
  safe_goto_with m.table safe fits safe.contexts

theorem safe_fail {msg : String} (safe : Safe m) (other : msg ∉ lockPanics) : Safe (m.fail msg) where
  cpus := by
    intro c
    obtain ⟨held, fits⟩ := safe.cpus c
    exact ⟨held, fits.owns, fits.depth, fits.place, fits.quiet⟩
  contexts := safe.contexts
  sound := by
    intro panic same
    cases same
    exact other

theorem held_take (owns : Held m c held) : Held (m.setOwner l (some c)) c (insert l held) := by
  intro k
  simp only [Machine.setOwner, Finset.mem_insert]
  by_cases same : k = l
  · subst k
    simp
  · simp [same, owns k]

theorem held_drop (owns : Held m c held) : Held (m.setOwner l none) c (held.erase l) := by
  intro k
  simp only [Machine.setOwner, Finset.mem_erase]
  by_cases same : k = l
  · subst k
    simp
  · simp [same, owns k]

theorem others_take {c d : C} (free : m.owner l = none) (apart : d ≠ c)
    (k : Lock) : (m.setOwner l (some c)).owner k = some d ↔ m.owner k = some d := by
  by_cases same : k = l
  · subst k
    simp [Machine.setOwner, free, apart.symm]
  · simp [Machine.setOwner, same]

theorem others_drop {c d : C} (mine : m.owner l = some c) (apart : d ≠ c)
    (k : Lock) : (m.setOwner l none).owner k = some d ↔ m.owner k = some d := by
  by_cases same : k = l
  · subst k
    simp [Machine.setOwner, mine, apart.symm]
  · simp [Machine.setOwner, same]

theorem safe_take (safe : Safe m) (free : m.owner l = none) (owns : Held m c held)
    (depth : (insert l held).card ≤ cpu.noff) (place : PcFits (insert l held) cpu.noff pc)
    (quiet : cpu.Quiet) : Safe ((m.setOwner l (some c)).goto c cpu pc) :=
  safe_move safe rfl (fun _ apart k => others_take free apart k)
    ⟨held_take owns, depth, place, quiet⟩ safe.contexts rfl

theorem safe_drop (safe : Safe m) (mine : m.owner l = some c) (owns : Held m c held)
    (depth : (held.erase l).card ≤ cpu.noff) (place : PcFits (held.erase l) cpu.noff pc) (quiet : cpu.Quiet) :
    Safe ((m.setOwner l none).goto c cpu pc) :=
  safe_move safe rfl (fun _ apart k => others_drop mine apart k)
    ⟨held_drop owns, depth, place, quiet⟩ safe.contexts rfl

/- One command of a process's kernel thread. -/
theorem safe_exec {m m' : Machine C} {p : ProcId} {answer : Nat} {k : K Unit} (safe : Safe m)
    (fits : Fits m c held cpu (.run p k)) (unmarked : ∀ rest, k ≠ mark "clone" rest)
    (res : m.exec c cpu p answer k = some m') : Safe m' := by
  obtain ⟨owns, depth, place, quiet⟩ := fits
  cases k with
  | ret a | setIntena on k =>
    cases res
    exact safe_goto safe ⟨owns, depth, place, quiet⟩
  | halt msg =>
    cases res
    exact safe_fail safe place
  | more => cases res
  | pushOff k =>
    cases res
    exact safe_goto safe ⟨owns, Nat.le_succ_of_le depth, place, cpu.quiet_pushOff⟩
  | popOff k =>
    obtain ⟨cpu', popped, less, still⟩ := Cpu.popOff_ok quiet (by have := place.1; omega)
    simp only [Machine.exec, popped] at res
    cases res
    refine safe_goto safe ⟨owns, ?_, ?_, still⟩
    · have := place.1
      omega
    rw [less]
    exact place.2
  | lock l k =>
    obtain ⟨free, room, rest⟩ := place
    have notMine : m.owner l ≠ some c := fun mine => free ((owns l).mpr mine)
    rw [Machine.exec, if_neg notMine] at res
    split at res
    · rename_i unowned
      cases res
      have fewer : (insert l held).card ≤ cpu.noff := by
        rw [Finset.card_insert_of_notMem free]
        omega
      exact safe_take safe unowned owns fewer rest quiet
    · cases res
  | unlock l k =>
    obtain ⟨mine, rest⟩ := place
    have owned : m.owner l = some c := (owns l).mp mine
    rw [Machine.exec, if_pos owned] at res
    cases res
    exact safe_drop safe owned owns (Finset.card_erase_le.trans depth) rest quiet
  | setIntr on k =>
    cases res
    refine safe_goto safe ⟨owns, depth, place.2, ?_⟩
    intro deep
    cases on with
    | false => rfl
    | true => exact absurd (place.1 rfl) (Nat.ne_of_gt deep)
  | sched k =>
    obtain ⟨alone, one, rest⟩ := place
    have mine : m.owner (.proc p) = some c := (owns _).mp (by simp [alone])
    have off : cpu.intr = false := quiet (by omega)
    rw [Machine.exec, if_neg (not_not.mpr mine), if_neg (not_not.mpr one)] at res
    split at res
    · cases res
      exact safe_fail safe (by decide)
    rw [off, if_neg Bool.false_ne_true] at res
    cases res
    have back : Fits m c held cpu (.back p) := ⟨owns, depth, ⟨alone, one⟩, quiet⟩
    apply safe_goto_with m.table safe back
    intro q
    by_cases same : q = p
    · subst q
      simp only [Function.update_self]
      rw [alone, one] at rest
      exact rest
    simp only [Function.update_of_ne same]
    exact safe.contexts q
  | spawn q k =>
    cases res
    have same : Fits m c held cpu (.run p k) := ⟨owns, depth, place, quiet⟩
    apply safe_goto_with m.table safe same
    intro r
    by_cases same : r = q
    · subst r
      simp only [Function.update_self]
      exact ends_forkret _
    simp only [Function.update_of_ne same]
    exact safe.contexts r
  | act f k =>
    cases res
    exact safe_goto_with (f m.table) safe ⟨owns, depth, place m.table, quiet⟩ safe.contexts
  | ask what k =>
    cases res
    exact safe_goto safe ⟨owns, depth, place answer trivial, quiet⟩
  | mark name k =>
    cases res
    refine safe_goto safe ⟨owns, depth, place ?_, quiet⟩
    intro same
    cases same
    exact unmarked k rfl

theorem safe_stepCpu {m m' : Machine C} {answer : Nat} (safe : Safe m)
    (unmarked : ∀ p k, (m.cpus c).pc ≠ .run p (mark "clone" k)) (res : m.stepCpu c answer = some m') : Safe m' := by
  obtain ⟨held, fits⟩ := safe.cpus c
  unfold Machine.stepCpu at res
  cases here : (m.cpus c).pc with
  | scan i =>
    rw [here] at fits
    simp only [here] at res
    obtain ⟨owns, depth, ⟨rfl, zero⟩, quiet⟩ := fits
    split at res
    · rename_i small
      have notMine : m.owner (.proc ⟨i, small⟩) ≠ some c :=
        fun mine => absurd ((owns _).mpr mine) (by simp)
      rw [if_neg notMine] at res
      split at res
      · rename_i unowned
        cases res
        exact safe_take safe unowned owns (by simp) ⟨rfl, by simp [zero]⟩ (Cpu.quiet_pushOff _)
      · cases res
    cases res
    exact safe_goto safe ⟨owns, depth, ⟨rfl, zero⟩, fun deep => absurd zero (Nat.ne_of_gt deep)⟩
  | look p =>
    rw [here] at fits
    simp only [here] at res
    obtain ⟨owns, depth, ⟨rfl, one⟩, quiet⟩ := fits
    split at res
    · cases res
      have ready : PcFits {Lock.proc p} (m.cpus c).cpu.noff (.run p (m.context p)) := by
        rw [PcFits, one]
        exact safe.contexts p
      exact safe_goto_with _ safe ⟨owns, depth, ready, quiet⟩ safe.contexts
    cases res
    exact safe_goto safe ⟨owns, depth, ⟨rfl, one⟩, quiet⟩
  | back p =>
    rw [here] at fits
    simp only [here] at res
    obtain ⟨owns, depth, ⟨rfl, one⟩, quiet⟩ := fits
    have owned : m.owner (.proc p) = some c := (owns _).mp (by simp)
    obtain ⟨cpu', popped, less, still⟩ := Cpu.popOff_ok quiet (by omega)
    rw [if_pos owned, popped] at res
    cases res
    exact safe_drop safe owned owns (by simp) ⟨by simp, by omega⟩ still
  | run p k =>
    rw [here] at fits
    simp only [here] at res
    apply safe_exec safe fits _ res
    intro rest same
    exact unmarked p rest (same ▸ here)
  | user p =>
    simp only [here] at res
    cases res

theorem safe_next {m m' : Machine C} {e : Event C} (safe : Safe m) (threadless : m.Threadless e)
    (res : m.next e = some m') : Safe m' := by
  unfold Machine.next at res
  split at res
  · cases res
  cases e with
  | step c answer => exact safe_stepCpu safe threadless res
  | trap c why =>
    obtain ⟨held, fits⟩ := safe.cpus c
    cases here : (m.cpus c).pc with
    | user p =>
      rw [here] at fits
      simp only [here] at res
      cases res
      obtain ⟨owns, depth, ⟨rfl, zero⟩, quiet⟩ := fits
      refine safe_goto safe ⟨owns, depth, ?_, quiet⟩
      rw [PcFits, zero]
      exact ends_usertrap p why
    | _ =>
      simp only [here] at res
      cases res
  | tick c =>
    obtain ⟨held, fits⟩ := safe.cpus c
    cases here : (m.cpus c).pc with
    | run p k =>
      rw [here] at fits
      simp only [here] at res
      split at res
      · rename_i on
        cases res
        obtain ⟨owns, depth, place, quiet⟩ := fits
        -- interrupts are on, so nothing is held
        have zero : (m.cpus c).cpu.noff = 0 := by
          by_contra deep
          have off := quiet (Nat.pos_of_ne_zero deep)
          simp [off] at on
        have empty : held = ∅ := by
          rw [← Finset.card_eq_zero]
          omega
        subst held
        refine safe_goto safe ⟨owns, depth, ?_, quiet⟩
        rw [PcFits, zero] at place ⊢
        exact ends_kerneltrap p place
      · cases res
    | _ =>
      simp only [here] at res
      cases res

theorem safe_boot (boot : m.Boot) : Safe m where
  cpus := by
    intro c
    obtain ⟨place, zero⟩ := boot.idle c
    refine ⟨∅, ?_, by simp, ?_, ?_⟩
    · intro l
      simp [boot.free l]
    · rw [place]
      exact ⟨rfl, zero⟩
    intro deep
    omega
  contexts := by
    intro p
    rcases boot.contexts p with first | empty
    · rw [first]
      exact ends_forkret p
    rw [empty]
    simp [Ends, wp, lockPanics]
  sound := by simp [boot.fine]

def Machine.Next (m : Machine C) (e : Event C) (m' : Machine C) : Prop := m.next e = some m'

/-- Every operation is balanced exactly if it is not a clone that takes a slot; and in every
    run from boot in which no clone takes one, no CPU reaches a panic of the lock code. -/
theorem locks_balanced_without_clone :
    (∀ (op : Op) (p : ProcId) (running : Table → Bool) (env : Env Table) (x : Local Lock),
      x.cpu.Quiet → op.Entry p x.held x.cpu.noff →
      (Fine (fun _ y => y.held = x.held ∧ y.cpu.noff = x.cpu.noff)
          (eval (.proc p) running env (op.code p) x) ↔ ¬ (op.isClone ∧ TakesSlot env x.reads procs))) ∧
    ∀ (boot m : Machine C) (es : List (Event C)), boot.Boot →
      Run (Guarded Machine.Next Machine.Threadless) boot es m →
      ∀ msg, m.panicked = some msg → msg ∉ lockPanics := by
  constructor
  · intro op p running env x quiet entry
    exact op_balanced_iff op p running env quiet entry
  intro boot m es start run
  have safe : Safe m := run_invariant Safe (safe_boot start)
    (fun _ _ _ before last => safe_next before last.1 last.2) run
  exact safe.sound

end

def blankProc : Proc where
  state := .unused
  chan := none
  killed := false
  xstate := 0
  pid := 0
  parent := none
  sz := 0
  pagetable := none
  trapframe := none
  ofile := fun _ => none
  cwd := none
  name := ""
  youAThread := false
  threadCount := 0

def oneProc : Table where
  proc p := if p = 0 then { blankProc with state := .runnable } else blankProc
  nextpid := 1
  initproc := 0

def oneCpu : Machine Unit where
  table := oneProc
  owner _ := none
  cpus _ := ⟨⟨0, false, false⟩, .scan 0⟩
  context := forkret
  panicked := none

def cloneThenTimer : List (Event Unit) :=
  List.replicate 7 (.step () 1) ++ .trap () (.clone 0 0) :: List.replicate 154 (.step () 1) ++
    .trap () .timer :: List.replicate 9 (.step () 1)

theorem cloneThenTimer_panics :
    (exec Machine.next oneCpu cloneThenTimer).bind Machine.panicked = some "sched locks" := by
  decide +kernel

theorem clone_wedges_cpu :
    (¬ ∀ (op : Op) (p : ProcId) (running : Table → Bool) (env : Env Table) (x : Local Lock),
      x.cpu.Quiet → op.Entry p x.held x.cpu.noff → Fine (fun _ y => y.held = x.held ∧ y.cpu.noff = x.cpu.noff)
        (eval (.proc p) running env (op.code p) x)) ∧
    ¬ ∀ (boot m : Machine Unit) (es : List (Event Unit)), boot.Boot → Run Machine.Next boot es m →
      m.panicked ≠ some "acquire" ∧ m.panicked ≠ some "sched locks" := by
  constructor
  · intro balanced
    have quiet : (⟨0, true, true⟩ : Cpu).Quiet := fun deep => absurd deep (by decide)
    have entry : (Op.clone 0 0).Entry 0 ∅ 0 := ⟨under_empty, noProc_empty⟩
    have fine := balanced (.clone 0 0) 0 (fun _ => false) ⟨fun _ => oneProc, fun _ => 1⟩
      ⟨∅, ⟨0, true, true⟩, 0⟩ quiet entry
    rw [op_balanced_iff _ _ _ _ quiet entry] at fine
    apply fine
    refine ⟨rfl, ⟨1, by decide, ?_⟩, by decide, by decide⟩
    decide
  intro never
  obtain ⟨m, reached, panicked⟩ := Option.bind_eq_some_iff.mp cloneThenTimer_panics
  have boot : oneCpu.Boot := ⟨fun _ => rfl, fun _ => ⟨rfl, rfl⟩, fun _ => .inl rfl, rfl⟩
  have run : Run Machine.Next oneCpu cloneThenTimer m :=
    (run_iff_exec Machine.next cloneThenTimer m).mpr reached
  exact (never oneCpu m cloneThenTimer boot run).2 panicked

end Xv6Proc
