import Xv6.KernelRuns

/- Processes, with any number of CPUs and slots: one CPU for a process, no lost wakeup, and exit and
   wait between parents and children. -/
namespace Xv6Kern
open Threads Prog Xv6Proc

section
variable {n m : Nat}

def plain : Ext n Unit Unit Empty where
  ready := fun _ _ => False
  inv := fun _ => True
  noted := fun _ _ _ _ => True
  may := fun _ _ _ _ _ _ => False
  quits := fun _ => True
  inv_may := fun _ _ _ _ _ _ _ _ _ => trivial
  noted_may := fun _ _ _ _ _ _ _ _ _ => trivial
  noted_other := fun _ _ _ _ _ _ _ _ _ _ _ _ _ _ => trivial
  noted_quits := fun _ _ _ _ _ _ _ => trivial

def noCalls : Calls n Unit Unit Empty Empty := ⟨fun _ _ => pure (), fun _ _ _ => False⟩

abbrev ProcConf (n m : Nat) := Conf n m Unit Unit Empty

abbrev ProcEvent (n m : Nat) := Signal (Thread n m) (Call Empty) Irq

/-- scheduler, fork, exit, wait, kill, sleep and wakeup by any processes, with interrupts. -/
def ProcStep (init : Fin n) : ProcConf n m → ProcEvent n m → ProcConf n m → Prop :=
  KernStep plain noCalls init (fun _ => False) free

def ProcRun (init : Fin n) (es : List (ProcEvent n m)) (c : ProcConf n m) : Prop :=
  Runs.Run (ProcStep init) (bootConf init () ()) es c

variable {init : Fin n} {es : List (ProcEvent n m)} {c : ProcConf n m}

theorem proc_safe (run : ProcRun init es c) : Safe (kernRules plain init fun _ => False) (Good plain init) Rest c := by
  refine kern_runs ?_ trivial (fun _ _ => trivial) trivial ?_ run
  · intro s l t o _ _ p _ _ w calm
    exact calm.elim
  intro p a y l _ may
  exact may.elim

/- init, in slot 0 of two on one CPU, forks and waits; its child exits with 7 and is freed. -/

instance : DecidablePred (plain : Ext n Unit Unit Empty).quits := fun _ => .isTrue trivial

instance (p : Fin n) (a : Empty) (y : Unit) : Decidable (noCalls.may p a y) := .isFalse id

def steps (t : Thread n m) (count : Nat) : List (ProcEvent n m) := List.replicate count (.own (.step t))

def call (t : Thread n m) (what : Call Empty) : List (ProcEvent n m) := [.own (.start t what)]

def familyWaits : List (ProcEvent 2 1) :=
  call (.sched 0) .scheduler ++ steps (.sched 0) 5 ++ call (.proc 0) .forkret ++ steps (.proc 0) 1 ++
  call (.proc 0) (.fork true true true) ++ steps (.proc 0) 17 ++
  call (.proc 0) (.wait 8 true 2) ++ steps (.proc 0) 14

def familyWakes : List (ProcEvent 2 1) :=
  familyWaits ++ steps (.sched 0) 7 ++ call (.proc 1) .forkret ++ steps (.proc 1) 1 ++
  call (.proc 1) (.exit 7) ++ steps (.proc 1) 8

def familyRun : List (ProcEvent 2 1) :=
  familyWakes ++ steps (.proc 1) 7 ++ steps (.sched 0) 2 ++ call (.sched 0) .scheduler ++
  steps (.sched 0) 5 ++ steps (.proc 0) 12

def familyAfter (es : List (ProcEvent 2 1)) : ProcConf 2 1 :=
  Runs.after (kernNext plain noCalls 0 fun _ => False) (bootConf 0 () ()) es

theorem family_run (es : List (ProcEvent 2 1))
    (computes : (Runs.exec (kernNext plain noCalls 0 fun _ => False) (bootConf 0 () ()) es).isSome = true) :
    ProcRun 0 es (familyAfter es) :=
  Runs.run_after (kernNext_step plain noCalls 0 _) computes

section
variable {X Y W : Type} {s : Kernel n m X W} {l : Thread n m → Ledger n X Y W} {d : Fin m} {p : Fin n}

theorem sched_owner (cpus : Cpus s l) (here : s.cur d = .sched d) (locks : (l (.sched d)).locks = {.proc p}) :
    s.owner (.proc p) = some d := by
  apply (cpus.own d (.proc p)).mpr
  rw [here, locks]
  exact Finset.mem_singleton_self _

theorem cproc_of (cpus : Cpus s l) (named : s.cproc d = some p) : s.cur d = .proc p ∨ s.owner (.proc p) = some d := by
  cases thread : s.cur d with
  | proc q =>
    have other := (cpus.busy d q thread).1
    rw [named] at other
    cases other
    exact .inl rfl
  | sched d' =>
    obtain rfl := cpus.place d d' thread
    have ok := cpus.idle d' thread
    unfold SchedOk at ok
    right
    cases mode : (l (.sched d')).mode with
    | named q | gone q =>
      rw [mode] at ok
      obtain ⟨other, locks, -⟩ := ok
      rw [named] at other
      cases other
      exact sched_owner cpus thread locks
    | idle =>
      rw [mode] at ok
      cases named.symm.trans ok
    | picked q =>
      rw [mode] at ok
      cases named.symm.trans ok.1
    | run | ready st | away =>
      rw [mode] at ok
      exact ok.elim

theorem claims_off (cpus : Cpus s l) (claims : Claims (l (.sched d)) p) :
    s.cur d = .sched d ∧ (l (.sched d)).locks = {.proc p} ∧ s.Off p := by
  have here : s.cur d = .sched d := by
    cases thread : s.cur d with
    | sched d' => rw [cpus.place d d' thread]
    | proc q =>
      have mode := (cpus.busy d q thread).2.1
      rcases claims with picked | named
      · cases mode.symm.trans picked
      · cases mode.symm.trans named
  have ok := cpus.idle d here
  unfold SchedOk at ok
  rcases claims with mode | mode
  · rw [mode] at ok
    exact ⟨here, ok.2.1, ok.2.2.2⟩
  rw [mode] at ok
  exact ⟨here, ok.2.1, ok.2.2.2⟩

end

/- Who makes a sleeper RUNNABLE. -/
section
variable {X Y W : Type} {s s' : Kernel n m X W} {l : Thread n m → Ledger n X Y W} {d : Fin m} {t : Thread n m}
  {E : Ext n X Y W} {o : Op n X Y W} {a : Ans o} {q r : Fin n}

theorem woken_not_same (asleep : (s.slot q).state = .sleeping) (up : (s'.slot q).state = .runnable) :
    s'.slot ≠ s.slot := by
  intro same
  rw [same, asleep] at up
  cases up

theorem woken_not_slot {x : Slot n W} (asleep : (s.slot q).state = .sleeping)
    (up : (s'.slot q).state = .runnable) (not : x.state = .runnable → (s.slot r).state ≠ .sleeping) :
    s'.slot ≠ Function.update s.slot r x := by
  intro slot
  rw [slot] at up
  by_cases same : q = r
  · rw [same, Function.update_self] at up
    exact not up (same ▸ asleep)
  rw [Function.update_of_ne same, asleep] at up
  cases up

variable [DecidableEq W]

theorem wakeIf_woken (w : Option (Chan n W)) (asleep : (s.slot q).state = .sleeping)
    (up : ((s.wakeIf r w).slot q).state = .runnable) : r = q ∧ (s.slot q).chan = w := by
  unfold Kernel.wakeIf at up
  split at up
  · rename_i found
    by_cases same : r = q
    · rw [same] at found
      exact ⟨same, found.2⟩
    change (Function.update s.slot r _ q).state = .runnable at up
    rw [Function.update_of_ne (Ne.symm same), asleep] at up
    cases up
  rw [asleep] at up
  cases up

theorem killIf_woken {init : Fin n} {p : Fin n} {pid : Int} {b : Bool} (asleep : (s.slot q).state = .sleeping)
    (up : (s'.slot q).state = .runnable) (done : next init d (.proc p) (.killIf r pid : Op n X Y W) s = some (b, s')) :
    r = q ∧ ((s.slot q).pid : Int) = pid := by
  obtain ⟨found, -, rfl⟩ | ⟨-, rfl⟩ := test_done done
  · by_cases same : r = q
    · rw [same] at found
      exact ⟨same, found⟩
    change (Function.update s.slot r _ q).state = .runnable at up
    rw [Function.update_of_ne (Ne.symm same), asleep] at up
    cases up
  rw [asleep] at up
  cases up

theorem woken_by {init : Fin n} (cpus : Cpus s l) (family : Family init s l) (here : s.cur d = t)
    (ok : allows E init t o (l t)) (done : next init d t o s = some (a, s'))
    (asleep : (s.slot q).state = .sleeping) (up : (s'.slot q).state = .runnable) :
    o = .wakeIf q (s.slot q).chan ∨ o = .killIf q (s.slot q).pid := by
  cases t with
  | sched d' =>
    cases o with
    | acquire lk =>
      obtain ⟨-, rfl⟩ := acquire_done done
      exact absurd rfl (woken_not_same asleep up)
    | release lk =>
      obtain rfl := release_done done
      exact absurd rfl (woken_not_same asleep up)
    | pick r =>
      obtain ⟨-, -, rfl⟩ | ⟨-, rfl⟩ := test_done done
      · exact absurd rfl (woken_not_slot (r := r) asleep up nofun)
      · exact absurd rfl (woken_not_same asleep up)
    | wakeIf r w =>
      cases done
      obtain ⟨rfl, rfl⟩ := wakeIf_woken w asleep up
      exact .inl rfl
    | setProc r | save | loadProc r | woke w =>
      cases done
      exact absurd rfl (woken_not_same asleep up)
    | _ => cases ok
  | proc p =>
    cases o with
    | acquire lk =>
      obtain ⟨-, rfl⟩ := acquire_done done
      exact absurd rfl (woken_not_same asleep up)
    | release lk | sleepRelease w lk =>
      obtain rfl := release_done done
      exact absurd rfl (woken_not_same asleep up)
    | schedCheck =>
      obtain ⟨-, rfl⟩ := check_done done
      exact absurd rfl (woken_not_same asleep up)
    | checkInit =>
      obtain ⟨-, rfl⟩ := refuse_done done
      exact absurd rfl (woken_not_same asleep up)
    | goSleep w | setZombie status =>
      cases done
      exact absurd rfl (woken_not_slot (r := p) asleep up nofun)
    | clearChan =>
      cases done
      refine absurd rfl (woken_not_slot (r := p) asleep up ?_)
      intro runnable sleeping
      cases sleeping.symm.trans runnable
    | giveUp =>
      cases done
      refine absurd rfl (woken_not_slot (r := p) asleep up ?_)
      intro _
      rw [state_run cpus here ok.1]
      nofun
    | wakeIf r w =>
      cases done
      obtain ⟨rfl, rfl⟩ := wakeIf_woken w asleep up
      exact .inl rfl
    | killIf r pid =>
      obtain ⟨rfl, rfl⟩ := killIf_woken asleep up done
      exact .inr rfl
    | setUsed r pid | freeproc r | reap r addr =>
      cases done
      exact absurd rfl (woken_not_slot (r := r) asleep up nofun)
    | setRunnable r =>
      cases done
      refine absurd rfl (woken_not_slot (r := r) asleep up ?_)
      intro _
      rw [((family.known p).child r ok.2.2.1).2.1]
      nofun
    | never => cases done
    | pick r | setProc r | loadProc r => cases ok
    | _ =>
      cases done
      exact absurd rfl (woken_not_same asleep up)

end

/-- A process has at most one CPU, a RUNNING one with its lock free is c->proc of exactly one, and a
    scheduler switches only to a process that has left its CPU through swtch. -/
theorem one_cpu (run : ProcRun init es c) :
    (∀ d d' p, c.state.cur d = .proc p → c.state.cur d' = .proc p → d = d') ∧
    (∀ p, (c.state.slot p).state = .running → c.state.owner (.proc p) = none →
      ∃! d, c.state.cproc d = some p) ∧
    ∀ d p k, c.code (.sched d) = .op (.loadProc p) k → (∀ d', c.state.cur d' ≠ .proc p) ∧
      ∀ o k, c.code (.proc p) = .op o k → o ≠ .schedCheck ∧ o ≠ .save ∧ o ≠ .loadSched := by
  have safe := proc_safe run
  have cpus := safe.inv.cpus
  refine ⟨cpus.one, ?_, ?_⟩
  · intro p running free
    have here : ∃ d, c.state.cur d = .proc p := by
      rcases cpus.running p running with on | ⟨d, there, claims⟩
      · exact on
      have owner := sched_owner cpus there (claims_off cpus claims).2.1
      rw [free] at owner
      cases owner
    obtain ⟨d, there⟩ := here
    refine ⟨d, (cpus.busy d p there).1, ?_⟩
    intro d' named
    rcases cproc_of cpus named with on | owner
    · exact cpus.one d' d p on there
    rw [free] at owner
    cases owner
  intro d p k next
  have named : (c.ledger (.sched d)).mode = .named p := safe_allows safe next
  have off := (claims_off cpus (Or.inr named)).2.2
  refine ⟨off, ?_⟩
  intro o k code
  have allowed := safe_allows safe code
  have away := (cpus.off p off).1
  have still : ∀ st, (c.ledger (.proc p)).mode ≠ .ready st := by
    intro st ready
    cases away.symm.trans ready
  refine ⟨?_, ?_, ?_⟩
  · rintro rfl
    exact still _ allowed.1.choose_spec
  · rintro rfl
    exact still _ allowed.1.choose_spec
  · rintro rfl
    exact still _ allowed.1.choose_spec

theorem one_cpu_family : ∃! d, (familyAfter familyRun).state.cproc d = some 0 :=
  (one_cpu (family_run familyRun (by decide +kernel))).2.1 0 (by decide +kernel) (by decide +kernel)

example : ((familyAfter familyRun).state.slot 0).state = .running := by decide +kernel

theorem wakeup_releases {X Y W : Type} (me : Option (Fin n)) (w : Option (Chan n W)) (procs : List (Fin n)) :
    (wakeup me w procs : P n X Y W Unit).All fun o => ∀ lk, o = .release lk → ∃ q, lk = .proc q := by
  induction procs with
  | nil => exact ⟨nofun, fun _ => trivial⟩
  | cons q rest ih =>
    unfold wakeup
    split
    · refine ⟨by rintro _ ⟨⟩, fun _ => ⟨by rintro _ ⟨⟩, fun _ => ⟨?_, fun _ => ih⟩⟩⟩
      rintro lk same
      cases same
      exact ⟨q, rfl⟩
    · exact ih

/-- The sleep that a process is in past its release of lk, after an operation of its own. -/
def bedAfter {X Y W : Type} : Op n X Y W → Option (Chan n W × Lk n) → Option (Chan n W × Lk n)
  | .sleepRelease w lk, _ => some (w, lk)
  | .clearChan, _ => none
  | _, bed => bed

theorem book_bed {X Y W : Type} (E : Ext n X Y W) (me : Option (Fin n)) (l : Ledger n X Y W) (o : Op n X Y W)
    (a : Ans o) : (book E init me l o a).bed = bedAfter o l.bed := by
  cases o with
  | release lk =>
    obtain ⟨mode, same, -⟩ := book_release E init me l lk
    rw [same]
    rfl
  | pick p => cases a <;> rfl
  | isUnused q => cases a <;> rfl
  | zombie q => cases a <;> rfl
  | setProc p => cases p <;> rfl
  | _ => rfl

/-- Where wakeup(w) returns with lk held, which it does not release, nobody who has released lk in
    sleep(w, lk) is SLEEPING. Sleepers become RUNNABLE only by a wakeup on their channel or a kill of
    their pid. -/
theorem no_lost_wakeup (run : ProcRun init es c) :
    (∀ t w k d lk q, c.code t = .op (.woke (some w)) k → c.state.cur d = t → c.state.owner lk = some d →
      (c.ledger (.proc q)).bed = some (w, lk) → (c.state.slot q).state ≠ .sleeping) ∧
    (∀ e c', ProcStep init c e c' → ∀ q, (c'.ledger (.proc q)).bed = (c.ledger (.proc q)).bed ∧
      e ≠ .own (.step (.proc q)) ∨ ∃ o k, e = .own (.step (.proc q)) ∧ c.code (.proc q) = .op o k ∧
        (c'.ledger (.proc q)).bed = bedAfter o (c.ledger (.proc q)).bed) ∧
    (∀ me w procs, (wakeup me w procs : P n Unit Unit Empty Unit).All fun o =>
      ∀ lk, o = .release lk → ∃ q, lk = .proc q) ∧
    ∀ e c', ProcStep init c e c' → ∀ q, (c.state.slot q).state = .sleeping →
      (c'.state.slot q).state = .runnable → ∃ t o k, e = .own (.step t) ∧ c.code t = .op o k ∧
        (o = .wakeIf q (c.state.slot q).chan ∨ o = .killIf q (c.state.slot q).pid) := by
  have safe := proc_safe run
  refine ⟨?_, ?_, wakeup_releases, ?_⟩
  · intro t w k d lk q next here owner inside asleep
    have allowed := safe_allows safe next
    have held := (safe.inv.cpus.own d lk).mp owner
    refine safe.inv.sleeps.awake d lk w q held ?_ ⟨inside, Or.inl asleep⟩
    rw [here] at held ⊢
    cases t with
    | sched d' => exact allowed w rfl lk held q
    | proc p =>
      refine allowed.2 w rfl lk held q ?_
      rintro rfl
      rw [state_run safe.inv.cpus here allowed.1] at asleep
      cases asleep
  · intro e c' step q
    rcases ledger_step step q with ⟨same, other⟩ | ⟨o, k, a, acts, next, ledger⟩
    · exact Or.inl ⟨congrArg Ledger.bed same, other⟩
    refine Or.inr ⟨o, k, acts, next, ?_⟩
    rw [ledger]
    exact book_bed plain _ _ o a
  rintro e c' ⟨-, step⟩ q asleep up
  cases step with
  | interrupt t h => exact absurd rfl (woken_not_same asleep up)
  | own step =>
    cases step with
    | start what rest => exact absurd rfl (woken_not_same asleep up)
    | @step t o k a s' next done =>
      obtain ⟨d, here, performed⟩ := done
      refine ⟨t, o, k, rfl, next, ?_⟩
      exact woken_by safe.inv.cpus safe.inv.family here (safe_allows safe next) performed asleep up

theorem no_lost_wakeup_family : (familyAfter familyWakes).state.owner .wait = some 0 ∧
    ((familyAfter familyWakes).state.slot 0).state ≠ .sleeping :=
  ⟨by decide +kernel, (no_lost_wakeup (family_run familyWakes (by decide +kernel))).1 (.proc 1) (.proc 0) _ 0
    .wait 0 rfl (by decide +kernel) (by decide +kernel) (by decide +kernel)⟩

/-- No process sleeps in wait, with wait_lock free, while a child of it is a ZOMBIE. -/
theorem no_sleep_past_zombie (run : ProcRun init es c) (free : c.state.owner .wait = none) (p q : Fin n)
    (asleep : (c.state.slot p).state = .sleeping) (chan : (c.state.slot p).chan = some (.proc p))
    (child : c.state.parent q = some p) : (c.state.slot q).state ≠ .zombie := by
  intro zombie
  exact not_stranded (proc_safe run).inv rfl free asleep chan ⟨q, child, zombie⟩

theorem no_sleep_past_zombie_family : ((familyAfter familyWaits).state.slot 0).state = .sleeping ∧
    ((familyAfter familyWaits).state.slot 1).state ≠ .zombie :=
  ⟨by decide +kernel, no_sleep_past_zombie (family_run familyWaits (by decide +kernel)) (by decide +kernel) 0 1
    (by decide +kernel) (by decide +kernel) (by decide +kernel)⟩

/-- A slot is freed for the address of the call, and only if the status can be stored there. -/
def ReapsFor {X Y W : Type} (addr : UInt64) (valid : Bool) (o : Op n X Y W) : Prop :=
  ∀ q at', o = .reap q at' → at' = addr ∧ (addr ≠ 0 → valid = true)

theorem waitScan_reaps {X Y W : Type} (p : Fin n) (addr : UInt64) (valid havekids : Bool)
    (procs : List (Fin n)) : (waitScan p addr valid havekids procs : P n X Y W (Option Bool)).All
      (ReapsFor addr valid) := by
  induction procs generalizing havekids with
  | nil => trivial
  | cons q rest ih =>
    refine ⟨nofun, fun par => ?_⟩
    change Prog.All (ReapsFor addr valid) (if par = some p then _ else _)
    split
    · refine ⟨nofun, fun _ => ⟨nofun, fun pid => ?_⟩⟩
      cases pid with
      | none => exact ⟨nofun, fun _ => ih true⟩
      | some pid =>
        change Prog.All (ReapsFor addr valid) (if addr ≠ 0 ∧ valid = false then _ else _)
        split
        · exact ⟨nofun, fun _ => ⟨nofun, fun _ => ⟨nofun, fun _ => trivial⟩⟩⟩
        rename_i stores
        have frees : ReapsFor addr valid (.reap q addr : Op n X Y W) := by
          intro r at' same
          cases same
          refine ⟨rfl, fun address => ?_⟩
          by_contra invalid
          exact stores ⟨address, Bool.eq_false_iff.mpr invalid⟩
        split
        · exact ⟨nofun, fun _ => ⟨frees, fun _ => ⟨nofun, fun _ => ⟨nofun, fun _ => ⟨nofun, fun _ => trivial⟩⟩⟩⟩⟩
        · exact ⟨frees, fun _ => ⟨nofun, fun _ => ⟨nofun, fun _ => ⟨nofun, fun _ => trivial⟩⟩⟩⟩
    · exact ih havekids

theorem wait_reaps {X Y W : Type} (p : Fin n) (addr : UInt64) (valid : Bool) (turns : Nat)
    (procs : List (Fin n)) : (wait p addr valid turns procs : P n X Y W Unit).All (ReapsFor addr valid) := by
  refine ⟨nofun, fun _ => ?_⟩
  change Prog.All (ReapsFor addr valid) (waitLoop p addr valid procs turns)
  induction turns with
  | zero => exact ⟨nofun, fun _ => trivial⟩
  | succ turns ih =>
    apply all_bind (waitScan_reaps p addr valid false procs)
    rintro (_ | havekids)
    · trivial
    refine ⟨nofun, fun killed => ⟨nofun, fun thread => ?_⟩⟩
    change Prog.All (ReapsFor addr valid) (if (!havekids || killed) && !thread then _ else _)
    split
    · exact ⟨nofun, fun _ => ⟨nofun, fun _ => trivial⟩⟩
    refine all_bind ?_ fun _ => ih
    exact ⟨nofun, fun _ => ⟨nofun, fun _ => ⟨nofun, fun _ => ⟨nofun, fun _ => ⟨nofun, fun _ =>
      ⟨nofun, fun _ => ⟨nofun, fun _ => ⟨nofun, fun _ => ⟨nofun, fun _ => trivial⟩⟩⟩⟩⟩⟩⟩⟩⟩

/-- An exit is kept by a ZOMBIE until a wait frees it. Every pid is freed and returned at most once,
    by a wait of the creator, or of init (whose pid is 1) once the creator has exited, which stores the
    status at a nonzero address. Where it cannot, nothing is freed. -/
theorem exit_status_delivered (run : ProcRun init es c) :
    (∀ k st, c.state.hist.exits k = some st → (∃ q, (c.state.slot q).state = .zombie ∧
      (c.state.slot q).pid = k ∧ (c.state.slot q).xstate = st) ∨ ∃ r ∈ c.state.hist.reaped, r.pid = k ∧
        (k ∈ c.state.hist.returned ∨ ∃ p, (c.ledger (.proc p)).know.owed = some k)) ∧
    (c.state.hist.reaped.map Reap.pid).Nodup ∧ c.state.hist.returned.Nodup ∧
    (∀ k ∈ c.state.hist.returned, ∃ r ∈ c.state.hist.reaped, r.pid = k) ∧
    (∀ r ∈ c.state.hist.reaped, ∃ st, c.state.hist.exits r.pid = some st ∧
      (∃ k, c.state.hist.creator r.pid = some k ∧ (k = r.waiter ∨ r.waiter = 1 ∧ c.state.hist.exits k ≠ none)) ∧
      (r.addr ≠ 0 → (r, st) ∈ c.state.hist.stored)) ∧
    (∀ p q addr k, c.code (.proc p) = .op (.reap q addr) k → c.state.parent q = some p ∧
      (c.state.slot q).state = .zombie) ∧
    (∀ p pid k, c.code (.proc p) = .op (.waitReturn (some pid)) k → pid ∉ c.state.hist.returned ∧
      ∃ r ∈ c.state.hist.reaped, r.pid = pid ∧ r.waiter = (c.state.slot p).pid) ∧
    ∀ p addr valid turns procs, (wait p addr valid turns procs : P n Unit Unit Empty Unit).All
      (ReapsFor addr valid) := by
  have safe := proc_safe run
  have known := fun p => safe.inv.family.known p
  obtain ⟨pids, returns, lineage⟩ := safe.inv.records
  refine ⟨?_, returns.once, returns.paid_once, returns.paid, ?_, ?_, ?_, wait_reaps⟩
  · intro k st exited
    rcases pids.kept k (by rw [exited]; nofun) with ⟨r, member, same⟩ | ⟨q, zombie, same⟩
    · refine Or.inr ⟨r, member, same, ?_⟩
      rw [← same]
      exact returns.due r member
    refine Or.inl ⟨q, zombie, same, ?_⟩
    have told := pids.zombie q zombie
    rw [same, exited] at told
    exact (Option.some.inj told).symm
  · intro r member
    obtain ⟨st, exited⟩ := Option.ne_none_iff_exists'.mp (pids.gone r member).1
    refine ⟨st, exited, lineage.waiter r member, ?_⟩
    intro address
    obtain ⟨st', stored⟩ := returns.told r member address
    have same := returns.stored _ stored
    rw [exited] at same
    cases same
    exact stored
  · intro p q addr k next
    obtain ⟨-, -, -, pid, found⟩ := safe_allows safe next
    obtain ⟨-, -, -, zombie, -, parent⟩ := (known p).found q pid found
    exact ⟨parent, zombie⟩
  · intro p pid k next
    exact returns.owed p pid (safe_allows safe next)

theorem exit_status_delivered_family : (familyAfter familyRun).state.hist.exits 2 = some 7 ∧
    ∃ r ∈ (familyAfter familyRun).state.hist.reaped, r.pid = 2 :=
  ⟨by decide +kernel, (exit_status_delivered (family_run familyRun (by decide +kernel))).2.2.2.1 2
    (by decide +kernel)⟩

/-- No pid is used twice, and a parent that a process names is alive: its creator, or init once the creator has exited
    or is on its way out. -/
theorem process_family (run : ProcRun init es c) :
    (∀ q q', (c.state.slot q).state ≠ .unused → (c.state.slot q').state ≠ .unused →
      (c.state.slot q).pid = (c.state.slot q').pid → q = q') ∧
    (∀ q, (c.state.slot q).state ≠ .unused → ∀ r ∈ c.state.hist.reaped, (c.state.slot q).pid ≠ r.pid) ∧
    (Live (c.state.slot init).state ∧ (c.state.slot init).pid = 1 ∧ c.state.parent init = none) ∧
    ∀ q r, c.state.parent q = some r → r ≠ q ∧ Live (c.state.slot r).state ∧
      ∃ k, c.state.hist.creator (c.state.slot q).pid = some k ∧ (k = (c.state.slot r).pid ∨
        r = init ∧ (c.state.hist.exits k ≠ none ∨ ∃ p, (c.ledger (.proc p)).know.leaving = true ∧
          (c.state.slot p).pid = k)) := by
  have inv := (proc_safe run).inv
  obtain ⟨pids, -, lineage⟩ := inv.records
  refine ⟨pids.distinct, fun q used r member => (pids.gone r member).2 q used,
    ⟨inv.family.alive, pids.first, inv.family.root⟩, fun q r parent => ?_⟩
  refine ⟨?_, lineage.live q r parent, lineage.creator q r parent⟩
  rintro rfl
  exact inv.family.self r parent

theorem process_family_alive : Live ((familyAfter familyRun).state.slot 0).state :=
  (process_family (family_run familyRun (by decide +kernel))).2.2.1.1

end

end Xv6Kern
