import Xv6.KernelData

/- kernel/sleeplock.c, one sleep-lock under any processes, with kill, fork, exit and interrupts. -/
namespace Xv6Sleeplock
open Threads Prog Xv6Kern Xv6Proc

/-- locked and pid; holder is the process that is past its lk->locked = 1. -/
structure Sleeplock (n : Nat) where
  locked : Bool
  pid : Nat
  holder : Option (Fin n)

section
variable {n m : Nat}

def initsleeplock : Sleeplock n := ⟨false, 0, none⟩

abbrev Q (n : Nat) := P n (Sleeplock n) Bool Unit

def acquiresleepLoop (p : Fin n) : Nat → Q n Unit
  | 0 => act .never
  | turns + 1 => do
    let lk ← act .get
    if Sleeplock.locked lk then do
      sleep p (.ext ()) .ext
      acquiresleepLoop p turns
    else do
      act (.stamp (fun pid => ⟨true, pid, some p⟩) true)
      act (.release .ext)

def acquiresleep (p : Fin n) (turns : Nat) : Q n Unit := do
  act (.acquire .ext)
  acquiresleepLoop p turns

def releasesleep (p : Fin n) : Q n Unit := do
  act (.acquire .ext)
  let _ ← act .get
  act (.put ⟨false, 0, none⟩ false)
  wakeup (some p) (some (.ext ())) (List.finRange n)
  act (.release .ext)

def holdingsleep : Q n Bool := do
  act (.acquire .ext)
  let lk ← act .get
  let pid ← act .pid
  act (.release .ext)
  pure (Sleeplock.locked lk && Sleeplock.pid lk == pid)

/-- The lock is taken while it is not locked, and given up by its holder. -/
inductive Moves (p : Fin n) (k : Nat) : Sleeplock n → Bool → Sleeplock n → Bool → Prop where
  | take {lk : Sleeplock n} {y : Bool} (free : lk.locked = false) : Moves p k lk y ⟨true, k, some p⟩ true
  | give {lk : Sleeplock n} : Moves p k lk true ⟨false, 0, none⟩ false

structure Noted (p : Fin n) (k : Nat) (y : Bool) (lk : Sleeplock n) : Prop where
  holder : y = true ↔ lk.holder = some p
  pid : y = true → lk.pid = k

def lockExt : Ext n (Sleeplock n) Bool Unit where
  ready := fun _ lk => lk.locked = false
  inv := fun lk => lk.locked = true ↔ lk.holder ≠ none
  noted := Noted
  may := Moves
  quits := fun y => y = false
  inv_may := by
    intro p k lk y lk' y' _ _ moves
    cases moves with
    | take free => simp
    | give => simp
  noted_may := by
    intro p k lk y lk' y' _ _ moves
    cases moves with
    | take free => exact ⟨by simp, fun _ => rfl⟩
    | give => exact ⟨by simp, nofun⟩
  noted_other := by
    intro p k lk y lk' y' q j z inv mine moves other noted
    have apart : z = false := by
      by_contra holds
      have holder := noted.holder.mp (Bool.eq_true_of_not_eq_false holds)
      cases moves with
      | take free =>
        have locked := inv.mpr (by rw [holder]; nofun)
        cases free.symm.trans locked
      | give =>
        rw [mine.holder.mp rfl] at holder
        exact other (Option.some.inj holder).symm
    refine ⟨?_, fun holds => absurd holds (by rw [apart]; nofun)⟩
    cases moves with
    | take free => simp [apart, Ne.symm other]
    | give => simp [apart]
  noted_quits := by
    intro p k j lk y quits noted
    exact ⟨noted.holder, fun holds => absurd holds (by rw [quits]; nofun)⟩

inductive LockCall where
  | acquiresleep (turns : Nat)
  | releasesleep
  | holdingsleep

/-- Each release is by the holder. -/
def lockCalls : Calls n (Sleeplock n) Bool Unit LockCall where
  code := fun p a => match a with
    | .acquiresleep turns => acquiresleep p turns
    | .releasesleep => releasesleep p
    | .holdingsleep => do
      let _ ← holdingsleep
      pure ()
  may := fun _ a y => match a with
    | .releasesleep => y = true
    | _ => True

variable {init p : Fin n} {calm : Chan n Unit → Prop} {l : Ledger n (Sleeplock n) Bool Unit} {y : Bool}

theorem acquiresleepLoop_spec (turns : Nat) (inside : Inside y l) (clean : ∀ w, ¬ l.dirty w) :
    procWp m lockExt init calm p (acquiresleepLoop p turns) l fun _ k => Home true k := by
  induction turns generalizing l with
  | zero => exact wp_perform trivial fun _ never => absurd never id
  | succ turns ih =>
    apply wp_get inside
    intro lk k _ inside' view dirty _
    rw [← dirty] at clean
    by_cases locked : lk.locked = true
    · rw [if_pos locked]
      refine wp_wait inside' view ?_ (fun v owes => absurd owes (clean _)) ?_
      · change lk.locked ≠ false
        rw [locked]
        nofun
      · exact fun j inside'' _ clean' => ih inside'' clean'
    rw [if_neg locked]
    refine wp_stamp inside' view (fun k => .take (Bool.eq_false_iff.mpr locked)) ?_
    intro j inside'' owes
    refine wp_last (wp_leave inside'' ?_ fun i home => wp_pure home)
    intro v dirty'
    rcases owes v dirty' with prev | ⟨_, ready, _⟩
    · exact absurd prev (clean _)
    · cases ready

theorem acquiresleep_spec (turns : Nat) (home : Home y l) :
    procWp m lockExt init calm p (acquiresleep p turns) l fun _ k => Home true k :=
  wp_enter home fun _ inside _ clean => acquiresleepLoop_spec turns inside clean

theorem releasesleep_spec (home : Home true l) :
    procWp m lockExt init calm p (releasesleep p) l fun _ k => Home false k := by
  refine wp_enter home fun k inside _ clean => ?_
  refine wp_get inside fun lk k₁ _ inside₁ view₁ dirty₁ _ => ?_
  refine wp_put inside₁ view₁ (fun _ => .give) fun k₂ inside₂ _ _ => ?_
  refine wp_announce () inside₂ fun k₃ inside₃ _ _ told => ?_
  exact wp_last (wp_leave inside₃ (fun _ _ => told) fun _ home => wp_pure home)

theorem holdingsleep_spec (home : Home y l) : procWp m lockExt init calm p holdingsleep l fun _ k => Home y k := by
  refine wp_enter home fun k inside _ clean => ?_
  refine wp_get inside fun lk k₁ _ inside₁ _ dirty₁ _ => ?_
  rw [← dirty₁] at clean
  refine wp_op trivial fun _ _ => ?_
  exact wp_leave inside₁ (fun v owes => absurd owes (clean _)) fun _ home => wp_pure home

abbrev LockConf (n m : Nat) := Conf n m (Sleeplock n) Bool Unit

abbrev LockEvent (n m : Nat) := Signal (Thread n m) (Call LockCall) Irq

def LockStep (init : Fin n) : LockConf n m → LockEvent n m → LockConf n m → Prop :=
  KernStep lockExt lockCalls init (fun _ => False) free

def LockRun (init : Fin n) (es : List (LockEvent n m)) (c : LockConf n m) : Prop :=
  Runs.Run (LockStep init) (bootConf init initsleeplock false) es c

variable {es : List (LockEvent n m)} {c : LockConf n m}

theorem lock_good (run : LockRun init es c) : Good lockExt init c.state c.ledger := by
  refine (kern_runs ?_ (by simp [lockExt, initsleeplock]) ?_ rfl ?_ run).inv
  · intro s l t o _ _ p _ _ w calm
    exact calm.elim
  · exact fun p k => ⟨by simp [initsleeplock], nofun⟩
  intro p a y l home may
  cases a with
  | acquiresleep turns => exact wp_mono (acquiresleep_spec turns home) fun _ _ home => ⟨_, home⟩
  | releasesleep =>
    obtain rfl : y = true := may
    exact wp_mono (releasesleep_spec home) fun _ _ home => ⟨_, home⟩
  | holdingsleep => exact wp_seq (holdingsleep_spec home) fun _ _ home => wp_pure ⟨_, home⟩

/-- At most one process is past lk->locked = 1 of acquiresleep and not past lk->locked = 0 of
    releasesleep, lk->pid is its pid, and with the inner spinlock free and the lock not locked nobody
    sleeps on it. -/
theorem sleeplock_safe (run : LockRun init es c) :
    (∀ p q, (c.ledger (.proc p)).note = true → (c.ledger (.proc q)).note = true → p = q) ∧
    (∀ p, (c.ledger (.proc p)).note = true → c.state.ext.locked = true ∧
      c.state.ext.pid = (c.state.slot p).pid) ∧
    (∀ e c', LockStep init c e c' → ∀ p, (c'.ledger (.proc p)).note = (c.ledger (.proc p)).note ∧
      e ≠ .own (.step (.proc p)) ∨ ∃ o k, e = .own (.step (.proc p)) ∧ c.code (.proc p) = .op o k ∧
        (c'.ledger (.proc p)).note = noteAfter o (c.ledger (.proc p)).note) ∧
    (c.state.owner .ext = none → c.state.ext.locked = false →
      ∀ q, (c.state.slot q).state = .sleeping → (c.state.slot q).chan ≠ some (.ext ())) := by
  have good := lock_good run
  have noted := good.ext.noted
  refine ⟨?_, ?_, fun e c' step p => note_step step p, ?_⟩
  · intro p q mine other
    have holder := (noted p).holder.mp mine
    rw [(noted q).holder.mp other] at holder
    exact (Option.some.inj holder).symm
  · intro p mine
    refine ⟨good.ext.inv.mpr ?_, (noted p).pid mine⟩
    rw [(noted p).holder.mp mine]
    nofun
  · intro free unlocked q asleep chan
    exact not_stranded good rfl free asleep chan unlocked

/- init takes the lock. -/

instance : DecidablePred (lockExt : Ext n (Sleeplock n) Bool Unit).quits :=
  fun y => inferInstanceAs (Decidable (y = false))

instance (p : Fin n) (a : LockCall) (y : Bool) : Decidable (lockCalls.may p a y) :=
  match a with
  | .releasesleep => inferInstanceAs (Decidable (y = true))
  | .acquiresleep _ | .holdingsleep => .isTrue trivial

def takes : List (LockEvent 1 1) :=
  .own (.start (.sched 0) .scheduler) :: List.replicate 5 (.own (.step (.sched 0))) ++
  [.own (.start (.proc 0) .forkret), .own (.step (.proc 0)), .own (.start (.proc 0) (.ext (.acquiresleep 1)))] ++
  List.replicate 4 (.own (.step (.proc 0)))

def taken : LockConf 1 1 :=
  Runs.after (kernNext lockExt lockCalls 0 fun _ => False) (bootConf 0 initsleeplock false) takes

theorem taken_run : LockRun 0 takes taken :=
  Runs.run_after (kernNext_step lockExt lockCalls 0 _) (by decide +kernel)

theorem sleeplock_safe_taken : taken.state.ext.locked = true ∧ taken.state.ext.pid = (taken.state.slot 0).pid :=
  (sleeplock_safe taken_run).2.1 0 (by decide +kernel)

end

end Xv6Sleeplock
