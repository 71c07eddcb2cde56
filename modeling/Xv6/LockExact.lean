import Xv6.LockBalance

/- When exactly an operation returns with the locks and the depth it was called with. -/
namespace Xv6Proc
open LockProg Prog Xv6 Xv6Spinlock

def Op.Entry (p : ProcId) (held : Finset Lock) (n : Nat) : Op → Prop
  | .fork => Under held n ∧ NoProc held ∧ Lock.wait ∉ held
  | .clone _ _ => Under held n ∧ NoProc held
  | .kill _ | .wakeup _ => held.card ≤ n ∧ NoProc held
  | .wait _ _ | .yield => held = ∅ ∧ n = 0
  | .sleep _ lk => held = {lk} ∧ n = 1 ∧ lk ≠ .proc p

def Op.isClone : Op → Bool
  | .clone _ _ => true
  | _ => false

theorem keeps_op {p : ProcId} {held : Finset Lock} {n : Nat} {asm : Assumed} (op : Op)
    (entry : op.Entry p held n) (other : op.isClone = false) : Keeps (.proc p) asm (op.code p) held n := by
  cases op with
  | fork => exact keeps_fork entry.1 p entry.2.1 entry.2.2
  | clone stack size => simp [Op.isClone] at other
  | wait addr turns =>
    obtain ⟨rfl, rfl⟩ := entry
    exact keeps_wait p addr turns
  | kill pid => exact keeps_kill entry.1 entry.2 pid procs
  | wakeup chan => exact keeps_then (keeps_wakeup entry.1 entry.2 _ _ _) fun _ => ⟨rfl, rfl⟩
  | yield =>
    obtain ⟨rfl, rfl⟩ := entry
    exact keeps_then (keeps_yield p) fun _ => ⟨rfl, rfl⟩
  | sleep chan lk =>
    obtain ⟨rfl, rfl, apart⟩ := entry
    exact keeps_then (keeps_sleep p chan apart) fun _ => ⟨rfl, rfl⟩

/- The code of clone runs straight through. -/
theorem straight_peek : Straight (peek : K Table) := fun _ => trivial
theorem straight_setProc (p : ProcId) (f : Proc → Proc) : Straight (setProc p f) :=
  fun _ => trivial
theorem straight_choice (what : String) : Straight (choice what : K Nat) := fun _ => trivial
theorem straight_acquire (l : Lock) : Straight (acquire l : K Unit) := trivial
theorem straight_release (l : Lock) : Straight (release l : K Unit) := trivial
theorem straight_kmemRounds (rounds : Nat) : Straight (kmemRounds rounds) := by
  induction rounds with
  | zero => trivial
  | succ rounds ih => exact ih

theorem straight_procFreepagetable : Straight procFreepagetable :=
  straight_bind (straight_choice _) straight_kmemRounds

theorem straight_freeproc (p : ProcId) : Straight (freeproc p) := by
  have kfree : Straight kfree := trivial
  apply straight_bind straight_peek
  intro t
  apply straight_bind (straight_onlyIf kfree)
  intro _
  apply straight_bind (straight_setProc _ _)
  intro _
  apply straight_bind (straight_onlyIf straight_procFreepagetable)
  intro _
  exact straight_setProc _ _

theorem straight_freeproc_release (p : ProcId) :
    Straight (do freeproc p; release (.proc p); pure none : K (Option ProcId)) := by
  apply straight_bind (straight_freeproc p)
  intro _
  trivial

theorem straight_allocprocFound (p : ProcId) : Straight (allocprocFound p) := by
  have allocpid : Straight allocpid := fun _ _ => trivial
  have kalloc : Straight kalloc := fun _ => trivial
  apply straight_bind allocpid
  intro pid
  apply straight_bind (straight_setProc _ _)
  intro _
  apply straight_bind kalloc
  intro frame
  split
  · exact straight_bind (straight_setProc _ _) fun _ => straight_freeproc_release p
  apply straight_bind (straight_setProc _ _)
  intro _
  have procPagetable : Straight procPagetable := straight_bind (straight_choice _) fun rounds =>
      straight_bind (straight_kmemRounds rounds) fun _ => straight_choice _
  apply straight_bind procPagetable
  intro pagetable
  split
  · exact straight_bind (straight_setProc _ _) fun _ => straight_freeproc_release p
  · exact straight_bind (straight_setProc _ _) fun _ => trivial

theorem straight_dupFiles (p np : ProcId) (fds : List (Fin nofile)) : Straight (dupFiles p np fds) := by
  induction fds with
  | nil => trivial
  | cons i fds ih =>
    apply straight_bind straight_peek
    intro t
    have filedup : Straight filedup := trivial
    have one : Straight (do
        Xv6Proc.filedup
        setProc np fun q => { q with
          ofile := Function.update q.ofile i ((t.proc p).ofile i) }) :=
      straight_bind filedup fun _ => straight_setProc _ _
    exact straight_bind (straight_onlyIf one) fun _ => ih

theorem straight_putAll (cs : List Char) : Straight (putAll cs) := by
  induction cs with
  | nil => trivial
  | cons c cs ih => exact ih

theorem straight_printf (text : String) : Straight (printf text) :=
  straight_bind (straight_acquire _) fun _ =>
    straight_bind (straight_putAll _) fun _ => straight_release _

theorem straight_cloneFound (p np : ProcId) (stack : UInt64) (size : Int32) :
    Straight (cloneFound p np stack size) := by
  apply straight_bind straight_peek
  intro t
  apply straight_bind (straight_onlyIf (straight_setProc _ _))
  intro _
  apply straight_bind straight_peek
  intro t
  apply straight_bind (straight_setProc _ _)
  intro _
  apply straight_bind (straight_dupFiles p np _)
  intro _
  have idup : Straight idup := trivial
  apply straight_bind idup
  intro _
  apply straight_bind (straight_setProc _ _)
  intro _
  apply straight_bind straight_peek
  intro t
  apply straight_bind (straight_setProc _ _)
  intro _
  exact straight_bind (straight_printf _) fun _ => trivial

section
variable {own : Lock} {running : Table → Bool} {env : Env Table}
variable {x : Local Lock}

/-- The table shows allocproc a free slot, and the slot gets its two pages. -/
def TakesSlot (env : Env Table) (reads : Nat) (ps : List ProcId) : Prop :=
  (∃ i, ∃ inside : i < ps.length,
    ((env.seen (reads + i)).proc (ps.get ⟨i, inside⟩)).state = .unused) ∧
  env.answer "kalloc" ≠ 0 ∧ env.answer "proc_pagetable" ≠ 0

theorem takesSlot_cons {reads : Nat} {p : ProcId} {ps : List ProcId}
    (busy : ((env.seen reads).proc p).state ≠ .unused) :
    TakesSlot env reads (p :: ps) ↔ TakesSlot env (reads + 1) ps := by
  have shift : (∃ i, ∃ lt : i < (p :: ps).length,
      ((env.seen (reads + i)).proc ((p :: ps).get ⟨i, lt⟩)).state = .unused) ↔
      ∃ i, ∃ lt : i < ps.length, ((env.seen (reads + 1 + i)).proc (ps.get ⟨i, lt⟩)).state = .unused := by
    constructor
    · rintro ⟨i, lt, free⟩
      cases i with
      | zero => exact absurd free busy
      | succ i =>
        refine ⟨i, Nat.lt_of_succ_lt_succ lt, ?_⟩
        rw [Nat.add_assoc, Nat.add_comm 1 i]
        exact free
    rintro ⟨i, lt, free⟩
    refine ⟨i + 1, Nat.succ_lt_succ lt, ?_⟩
    rw [Nat.add_assoc, Nat.add_comm 1 i] at free
    exact free
  unfold TakesSlot
  rw [shift]

variable (own running env) in
theorem eval_allocproc (ps : List ProcId) (x : Local Lock) (quiet : x.cpu.Quiet)
    (under : Under x.held x.cpu.noff) (noProc : NoProc x.held) :
    ∃ r y, eval own running env (allocproc ps) x = some (.ok (r, y)) ∧
      Allocated x.held x.cpu.noff r y.held y.cpu.noff ∧ y.cpu.Quiet ∧ (r.isSome ↔ TakesSlot env x.reads ps) := by
  induction ps generalizing x with
  | nil =>
    refine ⟨none, x, rfl, ⟨rfl, rfl⟩, quiet, ?_⟩
    simp [TakesSlot]
  | cons p ps ih =>
    simp only [allocproc]
    rw [eval_acquire_then (noProc p)]
    by_cases free : ((env.seen x.reads).proc p).state = .unused
    · -- the slot is taken, and its two pages decide
      have spec : wp own env.assumed (allocprocFound p) (insert (.proc p) x.held) (x.cpu.noff + 1)
          (fun r h m => Allocated x.held x.cpu.noff r h m ∧ Paged env.assumed r) :=
        wp_allocprocFound under p (noProc p)
      obtain ⟨r, y, done, ⟨allocated, paged⟩, still⟩ := eval_returns (x := { x with
          held := insert (.proc p) x.held, cpu := x.cpu.pushOff, reads := x.reads + 1 })
        (straight_allocprocFound p) x.cpu.quiet_pushOff spec
      refine ⟨r, y, ?_, allocated, still, ?_⟩
      · change eval own running env (ite _ _ _) _ = _
        rw [if_pos free]
        exact done
      cases r with
      | none =>
        simp only [Option.isSome_none, Bool.false_eq_true, false_iff]
        intro takes
        rcases paged with zero | zero
        · exact takes.2.1 zero.symm
        · exact takes.2.2 zero.symm
      | some q =>
        obtain ⟨⟨i, page, same⟩, ⟨j, table, equal⟩⟩ := paged
        simp only [Option.isSome_some, true_iff]
        exact ⟨⟨0, Nat.succ_pos _, free⟩, same ▸ page, equal ▸ table⟩
    obtain ⟨r, y, done, allocated, still, iff⟩ :=
      ih { x with cpu := x.cpu.settled, reads := x.reads + 1 } quiet under noProc
    refine ⟨r, y, ?_, allocated, still, iff.trans (takesSlot_cons free).symm⟩
    change eval own running env (ite _ _ _) _ = _
    rw [if_neg free, eval_release_then (x := { x with reads := x.reads + 1 }) (noProc p) quiet]
    exact done

theorem eval_putAll_then {A : Type} {f : Unit → K A} (cs : List Char) (quiet : x.cpu.Quiet)
    (deep : 0 < x.cpu.noff) : eval own running env (putAll cs >>= f) x = eval own running env (f ()) x := by
  induction cs with
  | nil => rfl
  | cons c cs ih =>
    apply (eval_push_pop quiet).trans
    rw [Cpu.settled_of_deep deep]
    exact ih

theorem eval_printf (text : String) (quiet : x.cpu.Quiet) (under : Under x.held x.cpu.noff) :
    eval own running env (printf text) x = some (.ok ((), { x with cpu := x.cpu.settled })) := by
  have free : Lock.pr ∉ x.held := under.free rfl
  rw [printf, eval_acquire_then free, eval_putAll_then _ x.cpu.quiet_pushOff (Nat.succ_pos _)]
  exact eval_release_then (f := ret) free quiet

theorem eval_clone_start (p : ProcId) (stack : UInt64) (size : Int32) {x y : Local Lock}
    {slot : Option ProcId} (quiet : x.cpu.Quiet) (under : Under x.held x.cpu.noff)
    (done : eval own running env (allocproc procs) { x with cpu := x.cpu.settled.settled } = some (.ok (slot, y))) :
    eval own running env (clone p stack size) x = slot.elim (some (.ok (-1, y))) fun np =>
        eval own running env (cloneFound p np stack size) y := by
  have after : eval own running env (myproc p) { x with cpu := x.cpu.settled } =
      some (.ok (p, { x with cpu := x.cpu.settled.settled })) :=
    eval_push_pop (k := ret p) (x := { x with cpu := x.cpu.settled }) quiet
  rw [clone, eval_bind, eval_printf _ quiet under]
  simp only
  rw [eval_bind, after]
  simp only
  rw [eval_bind, done]
  cases slot with
  | none => rfl
  | some np => rfl

theorem eval_clone (own : Lock) (running : Table → Bool) (env : Env Table) (p : ProcId) (stack : UInt64)
    (size : Int32) (quiet : x.cpu.Quiet) (under : Under x.held x.cpu.noff) (noProc : NoProc x.held) :
    ∃ r y, eval own running env (clone p stack size) x = some (.ok (r, y)) ∧ (TakesSlot env x.reads procs →
        ∃ np, y.held = insert (.proc np) x.held ∧ y.cpu.noff = x.cpu.noff + 1) ∧
      (¬ TakesSlot env x.reads procs → y.held = x.held ∧ y.cpu.noff = x.cpu.noff) := by
  obtain ⟨slot, y, done, allocated, still, iff⟩ := eval_allocproc own running env procs
    { x with cpu := x.cpu.settled.settled } quiet under noProc
  have start := eval_clone_start p stack size quiet under done
  cases slot with
  | none =>
    refine ⟨-1, y, start, ?_, fun _ => allocated⟩
    intro takes
    simpa using iff.mpr takes
  | some np =>
    obtain ⟨locks, deep⟩ := allocated
    have inner : Under y.held y.cpu.noff := by
      rw [locks, deep]
      exact under.insert rfl
    have keeps : Keeps own env.assumed (cloneFound p np stack size) y.held y.cpu.noff :=
      keeps_cloneFound inner p np stack size
    obtain ⟨r, z, ends, same, _⟩ : ∃ r z, eval own running env (cloneFound p np stack size) y =
        some (.ok (r, z)) ∧ (z.held = y.held ∧ z.cpu.noff = y.cpu.noff) ∧ z.cpu.Quiet :=
      eval_returns (straight_cloneFound p np stack size) still keeps
    refine ⟨r, z, start.trans ends, ?_, ?_⟩
    · intro _
      exact ⟨np, same.1.trans locks, same.2.trans deep⟩
    intro free
    exact absurd (iff.mp rfl) free

end

/-- An operation called as it should be returns with the locks and the depth it was called
    with, and breaks no lock rule, unless it is a clone that takes a slot. -/
theorem op_balanced_iff (op : Op) (p : ProcId) (running : Table → Bool) (env : Env Table) {x : Local Lock}
    (quiet : x.cpu.Quiet) (entry : op.Entry p x.held x.cpu.noff) :
    Fine (fun _ y => y.held = x.held ∧ y.cpu.noff = x.cpu.noff) (eval (.proc p) running env (op.code p) x) ↔
      ¬ (op.isClone ∧ TakesSlot env x.reads procs) := by
  by_cases other : op.isClone = true
  · cases op with
    | clone stack size =>
      obtain ⟨r, y, done, takes, fails⟩ := eval_clone (.proc p) running env p stack size quiet entry.1 entry.2
      change Fine _ (eval _ _ _ (clone p stack size) x) ↔ _
      rw [done]
      constructor
      · rintro balanced ⟨_, slot⟩
        obtain ⟨np, _, deep⟩ := takes slot
        have := balanced.2
        omega
      intro spared
      exact fails fun slot => spared ⟨rfl, slot⟩
    | _ => simp [Op.isClone] at other
  have keeps : Keeps (.proc p) env.assumed (op.code p) x.held x.cpu.noff :=
    keeps_op op entry (by simpa using other)
  constructor
  · rintro _ ⟨clone, _⟩
    exact other clone
  intro _
  have fine : Fine (fun _ y => (y.held = x.held ∧ y.cpu.noff = x.cpu.noff) ∧ y.cpu.Quiet)
      (eval (.proc p) running env (op.code p) x) := eval_fine quiet keeps
  cases res : eval (.proc p) running env (op.code p) x with
  | none => trivial
  | some r =>
    rw [res] at fine
    cases r with
    | error msg => exact fine
    | ok pair => exact fine.1

end Xv6Proc
