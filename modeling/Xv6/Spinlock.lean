import Xv6.Lib.LockProg

/- kernel/spinlock.c on one CPU: push_off, pop_off and holding, and the run of one
   operation when other CPUs answer its reads in any way. -/
namespace Xv6Spinlock
open LockProg Prog

structure Cpu where
  noff : Nat
  intr : Bool
  intena : Bool
  deriving DecidableEq

namespace Cpu

def pushOff (c : Cpu) : Cpu :=
  { noff := c.noff + 1, intr := false, intena := if c.noff = 0 then c.intr else c.intena }

def popOff (c : Cpu) : Except String Cpu :=
  if c.intr then .error "pop_off - interruptible"
  else if c.noff < 1 then .error "pop_off"
  else .ok { c with noff := c.noff - 1, intr := c.noff - 1 == 0 && c.intena }

/-- Interrupts are off while the depth is not zero. -/
def Quiet (c : Cpu) : Prop := 0 < c.noff → c.intr = false

@[simp] theorem pushOff_noff (c : Cpu) : c.pushOff.noff = c.noff + 1 := rfl

theorem quiet_pushOff (c : Cpu) : c.pushOff.Quiet := fun _ => rfl

def popped (c : Cpu) : Cpu := { c with noff := c.noff - 1, intr := c.noff - 1 == 0 && c.intena }

theorem popOff_eq {c : Cpu} (quiet : c.Quiet) (deep : 0 < c.noff) : c.popOff = .ok c.popped := by
  rw [popOff, quiet deep, if_neg Bool.false_ne_true, if_neg (by omega)]
  rfl

theorem quiet_popped (c : Cpu) : c.popped.Quiet := by
  intro still
  have nz : (c.noff - 1 == 0) = false := beq_false_of_ne (Nat.ne_of_gt still)
  simp [popped, nz]

theorem popOff_ok {c : Cpu} (quiet : c.Quiet) (deep : 0 < c.noff) :
    ∃ c', c.popOff = .ok c' ∧ c'.noff = c.noff - 1 ∧ c'.Quiet :=
  ⟨c.popped, popOff_eq quiet deep, rfl, c.quiet_popped⟩

/-- push_off and pop_off give back what was there, up to intena. -/
def settled (c : Cpu) : Cpu := { c with intena := if c.noff = 0 then c.intr else c.intena }

theorem settled_of_deep {c : Cpu} (deep : 0 < c.noff) : c.settled = c := by
  simp [settled, Nat.ne_of_gt deep]

theorem popOff_pushOff {c : Cpu} (quiet : c.Quiet) : c.pushOff.popOff = .ok c.settled := by
  by_cases top : c.noff = 0
  · simp [popOff, pushOff, settled, top]
  have off : c.intr = false := quiet (Nat.pos_of_ne_zero top)
  simp [popOff, pushOff, settled, top, off]

end Cpu

/-- What the run of an operation meets: the shared state at each of its reads, and what
    the code it calls decides. -/
structure Env (S : Type) where
  seen : Nat → S
  answer : String → Nat

def Env.assumed {S : Type} (env : Env S) : Assumed :=
  ⟨fun _ => False, fun what i => i = env.answer what⟩

structure Local (L : Type) where
  held : Finset L
  cpu : Cpu
  reads : Nat

section
variable {L P S A B : Type} [DecidableEq L]
variable {x : Local L} {k : Prog L P S A}

/-- The run of an operation up to its return, a panic, or the end of what is followed.
    A thread that comes back from sched runs under a scheduler that holds its lock alone. -/
def eval (own : L) (running : S → Bool) (env : Env S) :
    Prog L P S A → Local L → Option (Except String (A × Local L))
  | ret a, x => some (.ok (a, x))
  | halt msg, _ => some (.error msg)
  | more, _ => none
  | pushOff k, x => eval own running env k { x with cpu := x.cpu.pushOff }
  | popOff k, x =>
      match x.cpu.popOff with
      | .error msg => some (.error msg)
      | .ok cpu => eval own running env k { x with cpu := cpu }
  | lock l k, x =>
      if l ∈ x.held then some (.error "acquire")
      else eval own running env k { x with held := insert l x.held }
  | unlock l k, x =>
      if l ∈ x.held then eval own running env k { x with held := x.held.erase l }
      else some (.error "release")
  | setIntr on k, x => eval own running env k { x with cpu := { x.cpu with intr := on } }
  | setIntena on k, x => eval own running env k { x with cpu := { x.cpu with intena := on } }
  | sched k, x =>
      if own ∉ x.held then some (.error "sched p->lock")
      else if x.cpu.noff ≠ 1 then some (.error "sched locks")
      else if running (env.seen x.reads) then some (.error "sched running")
      else if x.cpu.intr then some (.error "sched interruptible")
      else eval own running env k { x with held := {own}, reads := x.reads + 1 }
  | spawn _ k, x => eval own running env k x
  | act _ k, x => eval own running env (k (env.seen x.reads)) { x with reads := x.reads + 1 }
  | ask what k, x => eval own running env (k (env.answer what)) x
  | mark _ k, x => eval own running env k x

variable {own : L} {running : S → Bool} {env : Env S}

/-- An outcome that breaks no lock rule and, when it returns, returns in `post`. -/
def Fine (post : A → Local L → Prop) : Option (Except String (A × Local L)) → Prop
  | none => True
  | some (.error msg) => msg ∉ lockPanics
  | some (.ok (a, x)) => post a x

theorem eval_fine {post : A → Finset L → Nat → Prop}
    (quiet : x.cpu.Quiet) (holds : wp own env.assumed k x.held x.cpu.noff post) :
    Fine (fun a y => post a y.held y.cpu.noff ∧ y.cpu.Quiet) (eval own running env k x) := by
  induction k generalizing x with
  | ret a => exact ⟨holds, quiet⟩
  | halt msg => exact holds
  | more => trivial
  | pushOff k ih => exact ih x.cpu.quiet_pushOff holds
  | popOff k ih =>
    obtain ⟨cpu, popped, depth, still⟩ := Cpu.popOff_ok quiet (by have := holds.1; omega)
    simp only [eval, popped]
    apply ih still
    rw [depth]
    exact holds.2
  | lock l k ih =>
    rw [eval, if_neg holds.1]
    exact ih quiet holds.2.2
  | unlock l k ih =>
    rw [eval, if_pos holds.1]
    exact ih quiet holds.2
  | setIntr on k ih =>
    have still : Cpu.Quiet { x.cpu with intr := on } := by
      intro deep
      cases on with
      | false => rfl
      | true => exact absurd (holds.1 rfl) (Nat.ne_of_gt deep)
    exact ih (x := { x with cpu := { x.cpu with intr := on } }) still holds.2
  | setIntena on k ih => exact ih quiet holds
  | sched k ih =>
    obtain ⟨alone, one, rest⟩ := holds
    have mine : own ∈ x.held := by simp [alone]
    have off : x.cpu.intr = false := quiet (by omega)
    rw [eval, if_neg (not_not.mpr mine), if_neg (not_not.mpr one)]
    by_cases busy : running (env.seen x.reads) = true
    · rw [if_pos busy]
      simp [Fine, lockPanics]
    rw [if_neg busy, off, if_neg Bool.false_ne_true, ← alone]
    exact ih (x := { x with reads := x.reads + 1 }) quiet rest
  | spawn p k ih => exact ih quiet holds
  | act f k ih => exact ih _ quiet (holds _)
  | ask what k ih => exact ih _ quiet (holds _ rfl)
  | mark name k ih => exact ih quiet (holds id)

theorem eval_bind (x : Prog L P S A) (f : A → Prog L P S B) (s : Local L) :
    eval own running env (x >>= f) s =
      match eval own running env x s with
      | none => none
      | some (.error msg) => some (.error msg)
      | some (.ok (a, s')) => eval own running env (f a) s' := by
  change eval own running env (x.bind f) s = _
  induction x generalizing s with
  | popOff k ih =>
    simp only [Prog.bind, eval]
    cases s.cpu.popOff with
    | error msg => rfl
    | ok cpu => exact ih _
  | lock l k ih =>
    simp only [Prog.bind, eval]
    split
    · rfl
    · exact ih _
  | unlock l k ih =>
    simp only [Prog.bind, eval]
    split
    · exact ih _
    · rfl
  | sched k ih =>
    simp only [Prog.bind, eval]
    split
    · rfl
    split
    · rfl
    split
    · rfl
    split
    · rfl
    · exact ih _
  | act f k ih => exact ih _ _
  | ask what k ih => exact ih _ _
  | ret a => rfl
  | halt msg => rfl
  | more => rfl
  | pushOff k ih => exact ih _
  | setIntr on k ih => exact ih _
  | setIntena on k ih => exact ih _
  | spawn p k ih => exact ih _
  | mark name k ih => exact ih _

theorem eval_acquire_then {l : L} {f : Unit → Prog L P S A} (free : l ∉ x.held) :
    eval own running env (acquire l >>= f) x =
      eval own running env (f ()) { x with held := insert l x.held, cpu := x.cpu.pushOff } := by
  change eval own running env (pushOff (lock l (f ()))) x = _
  rw [eval, eval, if_neg free]

theorem eval_release_then {l : L} {f : Unit → Prog L P S A} (free : l ∉ x.held) (quiet : x.cpu.Quiet) :
    eval own running env (release l >>= f) { x with held := insert l x.held, cpu := x.cpu.pushOff } =
      eval own running env (f ()) { x with cpu := x.cpu.settled } := by
  change eval own running env (unlock l (popOff (f ()))) _ = _
  rw [eval, if_pos (Finset.mem_insert_self l x.held), eval]
  simp only [Cpu.popOff_pushOff quiet, Finset.erase_insert free]

theorem eval_push_pop (quiet : x.cpu.Quiet) : eval own running env (pushOff (popOff k)) x =
      eval own running env k { x with cpu := x.cpu.settled } := by
  rw [eval, eval]
  simp only [Cpu.popOff_pushOff quiet]

/-- No loop that may go on, no switch away and no panic of its own. -/
def Straight : Prog L P S A → Prop
  | ret _ => True
  | halt _ | more | sched _ => False
  | pushOff k | popOff k | lock _ k | unlock _ k | setIntr _ k | setIntena _ k | spawn _ k
  | mark _ k => Straight k
  | act _ k => ∀ s, Straight (k s)
  | ask _ k => ∀ n, Straight (k n)

omit [DecidableEq L] in
theorem straight_bind {x : Prog L P S A} {f : A → Prog L P S B} (first : Straight x)
    (snd : ∀ a, Straight (f a)) : Straight (x >>= f) := by
  change Straight (x.bind f)
  induction x with
  | ret a => exact snd a
  | halt msg => exact first
  | more => exact first
  | sched k ih => exact first
  | act g k ih => exact fun s => ih s (first s)
  | ask what k ih => exact fun n => ih n (first n)
  | _ => rename_i k ih; exact ih first

omit [DecidableEq L] in
theorem straight_onlyIf {b : Bool} {x : Prog L P S Unit} (straight : Straight x) : Straight (onlyIf b x) := by
  cases b with
  | false => trivial
  | true => exact straight

theorem eval_straight (straight : Straight k) (x : Local L) :
    ∃ r, eval own running env k x = some r ∧ ∀ msg, r = .error msg → msg ∈ lockPanics := by
  induction k generalizing x with
  | ret a => exact ⟨_, rfl, by simp⟩
  | halt msg => exact straight.elim
  | more => exact straight.elim
  | sched k ih => exact straight.elim
  | popOff k ih =>
    cases popped : x.cpu.popOff with
    | ok cpu =>
      simp only [eval, popped]
      exact ih straight _
    | error msg =>
      simp only [eval, popped]
      refine ⟨_, rfl, ?_⟩
      intro msg' same
      cases same
      unfold Cpu.popOff at popped
      split at popped
      · cases popped
        decide
      split at popped
      · cases popped
        decide
      · cases popped
  | lock l k ih =>
    by_cases taken : l ∈ x.held
    · rw [eval, if_pos taken]
      exact ⟨_, rfl, by simp [lockPanics]⟩
    rw [eval, if_neg taken]
    exact ih straight _
  | unlock l k ih =>
    by_cases taken : l ∈ x.held
    · rw [eval, if_pos taken]
      exact ih straight _
    rw [eval, if_neg taken]
    exact ⟨_, rfl, by simp [lockPanics]⟩
  | pushOff k ih | setIntr on k ih | setIntena on k ih | spawn p k ih | mark name k ih => exact ih straight _
  | act f k ih => exact ih _ (straight _) _
  | ask what k ih => exact ih _ (straight _) _

theorem eval_returns {post : A → Finset L → Nat → Prop} (straight : Straight k) (quiet : x.cpu.Quiet)
    (holds : wp own env.assumed k x.held x.cpu.noff post) :
    ∃ a y, eval own running env k x = some (.ok (a, y)) ∧ post a y.held y.cpu.noff ∧ y.cpu.Quiet := by
  have fine : Fine (fun a y => post a y.held y.cpu.noff ∧ y.cpu.Quiet)
      (eval own running env k x) := eval_fine quiet holds
  obtain ⟨r, ends, panics⟩ : ∃ r, eval own running env k x = some r ∧ _ := eval_straight straight x
  rw [ends] at fine ⊢
  cases r with
  | error msg => exact absurd (panics msg rfl) fine
  | ok res => exact ⟨res.1, res.2, rfl, fine⟩

end

end Xv6Spinlock
