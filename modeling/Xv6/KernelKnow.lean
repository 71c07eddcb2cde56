import Mathlib
import Xv6.KernelCpus

/- What processes know about slots, parents and shared data stays true, because what one
   operation can change is under a lock that its process holds. -/
namespace Xv6Kern
open Threads Prog Xv6Proc Function

section
variable {n m : Nat} {X Y W : Type}

structure Known (s : Kernel n m X W) (l : Ledger n X Y W) (p : Fin n) : Prop where
  vacant : ∀ q, l.know.vacant = some q → q ≠ p ∧ .proc q ∈ l.locks ∧ (s.slot q).state = .unused
  child : ∀ q, l.know.child = some q → q ≠ p ∧ (s.slot q).state = .used ∧
    (l.know.adopted = false → s.parent q = none) ∧ (l.know.adopted = true → s.parent q = some p)
  par : ∀ r, l.know.par = some r → .wait ∈ l.locks ∧ s.parent p = r
  quiet : ∀ q, l.know.quiet q → .wait ∈ l.locks ∧ ¬ (s.parent q = some p ∧ (s.slot q).state = .zombie)
  strange : ∀ q, l.know.strange q → .wait ∈ l.locks ∧ s.parent q ≠ some p
  kid : ∀ q, l.know.kid = some q → .wait ∈ l.locks ∧ s.parent q = some p
  found : ∀ q pid, l.know.found = some (q, pid) → q ≠ p ∧ .wait ∈ l.locks ∧ .proc q ∈ l.locks ∧
    (s.slot q).state = .zombie ∧ (s.slot q).pid = pid ∧ s.parent q = some p
  view : ∀ x, l.view = some x → .ext ∈ l.locks ∧ s.ext = x

structure Family (init : Fin n) (s : Kernel n m X W) (l : Thread n m → Ledger n X Y W) : Prop where
  known : ∀ p, Known s (l (.proc p)) p
  single : ∀ p p' q, (l (.proc p)).know.child = some q → (l (.proc p')).know.child = some q → p = p'
  plain : ∀ c, (l (.sched c)).know.child = none
  orphan : ∀ q, (s.slot q).state = .unused → s.parent q = none
  maker : ∀ q p, (s.slot q).state = .used → s.parent q = some p → (l (.proc p)).know.child = some q
  root : s.parent init = none
  self : ∀ q, s.parent q ≠ some q
  alive : (s.slot init).state ≠ .unused ∧ (s.slot init).state ≠ .used ∧ (s.slot init).state ≠ .zombie

/-- What an operation of a process can change: slots whose locks it holds; with wait_lock held
    the parents and who is a ZOMBIE; with `ext` held the data. A slot that is being filled is
    its maker's alone. -/
structure Frame (s s' : Kernel n m X W) (l : Ledger n X Y W) : Prop where
  slots : ∀ q, .proc q ∉ l.locks → s'.slot q = s.slot q
  parents : .wait ∉ l.locks → s'.parent = s.parent
  zombies : .wait ∉ l.locks → ∀ q, (s'.slot q).state = .zombie ↔ (s.slot q).state = .zombie
  ext : .ext ∉ l.locks → s'.ext = s.ext
  used : ∀ q, (s.slot q).state = .used → l.know.child ≠ some q →
    (s'.slot q).state = .used ∧ s'.parent q = s.parent q

variable {s s' : Kernel n m X W} {l : Thread n m → Ledger n X Y W} {c c' : Fin m} {t : Thread n m} {p q : Fin n}
  {h : Ledger n X Y W} {lk : Lk n} {init : Fin n}

theorem on_of_lock (cpus : Cpus s l) (holds : lk ∈ (l (.proc p)).locks) (other : lk ≠ .proc p) :
    ∃ c, s.cur c = .proc p := by
  by_contra away
  have off := (cpus.off p fun c there => away ⟨c, there⟩).2
  rw [off] at holds
  exact other (Finset.mem_singleton.mp holds)

theorem not_mine (cpus : Cpus s l) (here : s.cur c = t) (apart : t ≠ .proc p)
    (holds : lk ∈ (l (.proc p)).locks) (other : lk ≠ .proc p) : lk ∉ (l t).locks := by
  intro mine
  obtain ⟨d, there⟩ := on_of_lock cpus holds other
  rw [← here] at mine
  rw [← there] at holds
  have same := lock_excl cpus mine holds
  rw [same, there] at here
  exact apart here.symm

theorem known_other (cpus : Cpus s l) (here : s.cur c = t) (apart : t ≠ .proc p)
    (known : Known s (l (.proc p)) p) (frame : Frame s s' (l t))
    (single : ∀ q, (l (.proc p)).know.child = some q → (l t).know.child ≠ some q) : Known s' (l (.proc p)) p := by
  have free : ∀ lk, lk ∈ (l (.proc p)).locks → lk ≠ .proc p → lk ∉ (l t).locks :=
    fun lk holds other => not_mine cpus here apart holds other
  have wait : .wait ∈ (l (.proc p)).locks → .wait ∉ (l t).locks := fun holds => free .wait holds nofun
  constructor
  · intro q vacant
    obtain ⟨other, holds, state⟩ := known.vacant q vacant
    have same := frame.slots q (free _ holds (fun eq => other (Lk.proc.inj eq)))
    exact ⟨other, holds, by rw [same]; exact state⟩
  · intro q child
    obtain ⟨other, state, prev, after⟩ := known.child q child
    obtain ⟨state', parent⟩ := frame.used q state (single q child)
    refine ⟨other, state', ?_, ?_⟩
    · rw [parent]
      exact prev
    rw [parent]
    exact after
  · intro r par
    obtain ⟨holds, parent⟩ := known.par r par
    rw [frame.parents (wait holds)]
    exact ⟨holds, parent⟩
  · intro q quiet
    obtain ⟨holds, none⟩ := known.quiet q quiet
    rw [frame.parents (wait holds), frame.zombies (wait holds)]
    exact ⟨holds, none⟩
  · intro q strange
    obtain ⟨holds, none⟩ := known.strange q strange
    rw [frame.parents (wait holds)]
    exact ⟨holds, none⟩
  · intro q kid
    obtain ⟨holds, parent⟩ := known.kid q kid
    rw [frame.parents (wait holds)]
    exact ⟨holds, parent⟩
  · intro q pid found
    obtain ⟨other, holds, holds', state, num, parent⟩ := known.found q pid found
    have same := frame.slots q (free _ holds' (fun eq => other (Lk.proc.inj eq)))
    rw [frame.parents (wait holds), same]
    exact ⟨other, holds, holds', state, num, parent⟩
  intro x view
  obtain ⟨holds, same⟩ := known.view x view
  rw [frame.ext (free _ holds nofun)]
  exact ⟨holds, same⟩

theorem state_run (cpus : Cpus s l) (here : s.cur c = .proc p) (run : (l (.proc p)).mode = .run) :
    (s.slot p).state = .running := by
  have ok := cpus.on c p here
  unfold RunOk at ok
  rw [run] at ok
  exact ok

theorem kill_state (x : Slot n W) : x.kill.state = x.state ∨ x.state = .sleeping ∧ x.kill.state = .runnable := by
  unfold Slot.kill
  by_cases asleep : x.state = .sleeping
  · exact .inr ⟨asleep, by simp [asleep]⟩
  · exact .inl (by simp [asleep])

theorem of_kill {x : Slot n W} {st : ProcState} (other : st ≠ .runnable) (now : x.kill.state = st) : x.state = st := by
  rcases kill_state x with same | ⟨-, up⟩
  · exact same.symm.trans now
  · exact absurd (now.symm.trans up) other

theorem state_setSlot (s : Kernel n m X W) (p q : Fin n) (x : Slot n W) :
    ((s.setSlot p x).slot q).state = if q = p then x.state else (s.slot q).state := by
  change (update s.slot p x q).state = _
  rw [update_apply]
  split <;> rfl

theorem frame_same {l : Ledger n X Y W} (slot : s'.slot = s.slot) (parent : s'.parent = s.parent)
    (ext : s'.ext = s.ext) : Frame s s' l := by
  refine ⟨?_, fun _ => parent, ?_, fun _ => ext, ?_⟩
  · intro q _
    rw [slot]
  · intro _ q
    rw [slot]
  intro q used _
  rw [slot, parent]
  exact ⟨used, rfl⟩

theorem frame_slot {l : Ledger n X Y W} {x : Slot n W} (slot : s'.slot = update s.slot q x)
    (parent : s'.parent = s.parent) (ext : s'.ext = s.ext) (mine : .proc q ∈ l.locks)
    (zombie : .wait ∉ l.locks → (x.state = .zombie ↔ (s.slot q).state = .zombie))
    (used : (s.slot q).state = .used → l.know.child ≠ some q → x.state = .used) : Frame s s' l := by
  refine ⟨?_, fun _ => parent, ?_, fun _ => ext, ?_⟩
  · intro r free
    rw [slot, update_of_ne]
    rintro rfl
    exact free mine
  · intro wait r
    rw [slot]
    by_cases same : r = q
    · rw [same, update_self]
      exact zombie wait
    · rw [update_of_ne same]
  intro r state apart
  rw [slot, parent]
  by_cases same : r = q
  · rw [same] at state apart ⊢
    rw [update_self]
    exact ⟨used state apart, rfl⟩
  rw [update_of_ne same]
  exact ⟨state, rfl⟩

theorem frame_other {l : Ledger n X Y W} {x : Slot n W} (slot : s'.slot = update s.slot q x)
    (parent : s'.parent = s.parent) (ext : s'.ext = s.ext) (mine : .proc q ∈ l.locks)
    (dead : (s.slot q).state ≠ .zombie) (used : (s.slot q).state ≠ .used) (after : x.state ≠ .zombie) :
    Frame s s' l := by
  refine frame_slot slot parent ext mine (fun _ => ?_) fun now => absurd now used
  exact ⟨fun now => absurd now after, fun now => absurd now dead⟩

theorem frame_parent {l : Ledger n X Y W} {r : Option (Fin n)} (slot : s'.slot = s.slot)
    (parent : s'.parent = update s.parent q r) (ext : s'.ext = s.ext) (mine : .wait ∈ l.locks)
    (used : (s.slot q).state = .used → l.know.child = some q) : Frame s s' l := by
  refine ⟨?_, fun free => absurd mine free, fun free => absurd mine free, fun _ => ext, ?_⟩
  · intro q' _
    rw [slot]
  intro q' state apart
  rw [slot, parent]
  refine ⟨state, ?_⟩
  by_cases same : q' = q
  · rw [same] at state apart
    exact absurd (used state) apart
  · rw [update_of_ne same]

variable {E : Ext n X Y W} {calm : Chan n W → Prop} {o : Op n X Y W} {a : Ans o}

theorem acquire_inv (done : s.acquire c lk = some s') :
    s.owner lk = none ∧ s' = (s.setOwner lk (some c)).setNoff c (s.noff c + 1) := by
  unfold Kernel.acquire at done
  split at done
  · rename_i free
    exact ⟨Option.isNone_iff_eq_none.mp free, (Option.some.inj done).symm⟩
  · cases done

theorem release_inv (done : s.release c lk = some s') : s' = (s.setOwner lk none).setNoff c (s.noff c - 1) := by
  unfold Kernel.release at done
  split at done
  · exact (Option.some.inj done).symm
  · cases done

theorem acquire_done {u : Unit} (done : ((s.acquire c lk).map fun s => ((), s)) = some (u, s')) :
    s.owner lk = none ∧ s' = (s.setOwner lk (some c)).setNoff c (s.noff c + 1) := by
  obtain ⟨s₁, made, same⟩ := Option.map_eq_some_iff.mp done
  cases same
  exact acquire_inv made

theorem release_done {u : Unit} (done : ((s.release c lk).map fun s => ((), s)) = some (u, s')) :
    s' = (s.setOwner lk none).setNoff c (s.noff c - 1) := by
  obtain ⟨s₁, made, same⟩ := Option.map_eq_some_iff.mp done
  cases same
  exact release_inv made

theorem check_done {P : Prop} [Decidable P] {u : Unit}
    (done : (if P then some ((), s) else none) = some (u, s')) : P ∧ s' = s := by
  split at done
  · rename_i holds
    cases done
    exact ⟨holds, rfl⟩
  · cases done

theorem refuse_done {P : Prop} [Decidable P] {u : Unit}
    (done : (if P then none else some ((), s)) = some (u, s')) : ¬ P ∧ s' = s := by
  split at done
  · cases done
  rename_i fails
  cases done
  exact ⟨fails, rfl⟩

theorem test_done {P : Prop} [Decidable P] {b : Bool} {s₁ : Kernel n m X W}
    (done : (if P then some (true, s₁) else some (false, s)) = some (b, s')) :
    P ∧ b = true ∧ s' = s₁ ∨ b = false ∧ s' = s := by
  split at done
  · rename_i holds
    cases done
    exact .inl ⟨holds, rfl, rfl⟩
  cases done
  exact .inr ⟨rfl, rfl⟩

theorem cpus_slot (cpus : Cpus s l) (here : s.cur c = t) {x : Slot n W} (s' : Kernel n m X W)
    (slot : s'.slot = update s.slot q x) (cur : s'.cur = s.cur) (cproc : s'.cproc = s.cproc)
    (owner : s'.owner = s.owner) (noff : s'.noff = s.noff) (locks : h.locks = (l t).locks)
    (mode : h.mode = (l t).mode) (state : x.state = (s.slot q).state ∨ (s.slot q).state ≠ .running ∧
      x.state ≠ .running ∧ .proc q ∈ (l t).locks ∧ t ≠ .proc q) : Cpus s' (update l t h) := by
  apply cpus_same cpus here s' cur cproc owner noff locks mode
  intro r
  rw [slot]
  by_cases same : r = q
  · rw [same, update_self]
    exact state
  rw [update_of_ne same]
  exact .inl rfl

theorem cpus_other (cpus : Cpus s l) (here : s.cur c = .proc p) {x : Slot n W} (s' : Kernel n m X W)
    (slot : s'.slot = update s.slot q x) (cur : s'.cur = s.cur) (cproc : s'.cproc = s.cproc)
    (owner : s'.owner = s.owner) (noff : s'.noff = s.noff) (locks : h.locks = (l (.proc p)).locks)
    (mode : h.mode = (l (.proc p)).mode) (prev : (s.slot q).state ≠ .running) (after : x.state ≠ .running)
    (mine : .proc q ∈ (l (.proc p)).locks) (other : q ≠ p) : Cpus s' (update l (.proc p) h) :=
  cpus_slot cpus here s' slot cur cproc owner noff locks mode
    (.inr ⟨prev, after, mine, fun eq => other (Thread.proc.inj eq).symm⟩)

theorem book_release (E : Ext n X Y W) (init : Fin n) (me : Option (Fin n)) (l : Ledger n X Y W) (lk : Lk n) :
    ∃ mode, book E init me l (.release lk) () = (l.drop lk).setMode mode ∧
      (mode = l.mode ∨ l.mode = .away ∧ lk ∈ me.map Lk.proc ∧ mode = .run) := by
  by_cases back : l.mode = .away ∧ lk ∈ me.map Lk.proc
  · refine ⟨.run, ?_, .inr ⟨back.1, back.2, rfl⟩⟩
    simp only [book, back.1, if_pos back.2]
  refine ⟨l.mode, ?_, .inl rfl⟩
  cases mode : l.mode with
  | away =>
    simp only [book, mode, if_neg fun own => back ⟨mode, own⟩]
    rw [← mode]
    rfl
  | _ =>
    simp only [book, mode]
    rw [← mode]
    rfl

theorem book_release_locks (E : Ext n X Y W) (init : Fin n) (me : Option (Fin n)) (l : Ledger n X Y W)
    (lk : Lk n) : (book E init me l (.release lk) ()).locks = l.locks.erase lk := by
  obtain ⟨mode, after, -⟩ := book_release E init me l lk
  rw [after]
  rfl

theorem book_release_mode (E : Ext n X Y W) (init : Fin n) {me : Option (Fin n)} (l : Ledger n X Y W)
    (other : lk ∉ me.map Lk.proc) : (book E init me l (.release lk) ()).mode = l.mode := by
  obtain ⟨mode, after, same | ⟨-, own, -⟩⟩ := book_release E init me l lk
  · rw [after]
    exact same
  · exact absurd own other

variable [DecidableEq W]

theorem frame_wakeIf {l : Ledger n X Y W} (s : Kernel n m X W) (w : Option (Chan n W))
    (mine : .proc q ∈ l.locks) : Frame s (s.wakeIf q w) l := by
  unfold Kernel.wakeIf
  split
  · rename_i asleep
    exact frame_other rfl rfl rfl mine (by rw [asleep.1]; nofun) (by rw [asleep.1]; nofun) nofun
  · exact frame_same rfl rfl rfl

theorem op_frame (cpus : Cpus s l) (family : Family init s l) (here : s.cur c = t)
    (ok : allows E init t o (l t)) (done : next init c t o s = some (a, s')) : Frame s s' (l t) := by
  cases t with
  | sched d =>
    cases o with
    | acquire lk =>
      obtain ⟨-, rfl⟩ := acquire_done done
      exact frame_same rfl rfl rfl
    | release lk =>
      obtain rfl := release_done done
      exact frame_same rfl rfl rfl
    | pick q =>
      have mine : .proc q ∈ (l (.sched d)).locks := sole_lock ok.2
      obtain ⟨state, -, rfl⟩ | ⟨-, rfl⟩ := test_done done
      · exact frame_other rfl rfl rfl mine (by rw [state]; nofun) (by rw [state]; nofun) nofun
      · exact frame_same rfl rfl rfl
    | wakeIf q w =>
      cases done
      exact frame_wakeIf s w ok.1
    | setProc q | save | loadProc q | woke w =>
      cases done
      exact frame_same rfl rfl rfl
    | _ => cases ok
  | proc p =>
    have known := family.known p
    cases o with
    | acquire lk =>
      obtain ⟨-, rfl⟩ := acquire_done done
      exact frame_same rfl rfl rfl
    | release lk | sleepRelease w lk =>
      obtain rfl := release_done done
      exact frame_same rfl rfl rfl
    | schedCheck =>
      obtain ⟨-, rfl⟩ := check_done done
      exact frame_same rfl rfl rfl
    | checkInit =>
      obtain ⟨-, rfl⟩ := refuse_done done
      exact frame_same rfl rfl rfl
    | goSleep w | giveUp =>
      obtain ⟨run, mine, -⟩ := ok
      have state := state_run cpus here run
      cases done
      exact frame_other rfl rfl rfl mine (by rw [state]; nofun) (by rw [state]; nofun) nofun
    | clearChan =>
      have state := cpus.on c p here
      unfold RunOk at state
      rw [show (l (.proc p)).mode = .away from ok] at state
      cases done
      refine frame_slot rfl rfl rfl state.2 (fun _ => Iff.rfl) (fun used _ => used)
    | setZombie status =>
      obtain ⟨-, -, run, -, mine, wait, -⟩ := ok
      have state := state_run cpus here run
      cases done
      refine frame_slot rfl rfl rfl mine (fun free => absurd wait free) ?_
      intro used
      rw [state] at used
      cases used
    | wakeIf q w =>
      cases done
      exact frame_wakeIf s w ok.1
    | killIf q pid =>
      obtain ⟨-, -, rfl⟩ | ⟨-, rfl⟩ := test_done done
      · rcases kill_state (s.slot q) with same | ⟨asleep, up⟩
        · refine frame_slot rfl rfl rfl ok.1 ?_ ?_
          · rw [same]
            exact fun _ => Iff.rfl
          rw [same]
          exact fun used _ => used
        · exact frame_other rfl rfl rfl ok.1 (by rw [asleep]; nofun) (by rw [asleep]; nofun) (by rw [up]; nofun)
      · exact frame_same rfl rfl rfl
    | setUsed q pid =>
      obtain ⟨-, vacant, -⟩ := ok
      obtain ⟨-, mine, state⟩ := known.vacant q vacant
      cases done
      exact frame_other rfl rfl rfl mine (by rw [state]; nofun) (by rw [state]; nofun) nofun
    | freeproc q =>
      obtain ⟨mine, other, child, fresh⟩ := ok
      obtain ⟨-, state, parent, -⟩ := known.child q child
      cases done
      have same : update s.parent q none = s.parent := by
        rw [← parent fresh]
        exact update_eq_self q s.parent
      refine frame_slot rfl same rfl mine ?_ (fun _ apart => absurd child apart)
      simp [Slot.clear, state]
    | setRunnable q =>
      obtain ⟨mine, -, child, -⟩ := ok
      obtain ⟨-, state, -⟩ := known.child q child
      cases done
      refine frame_slot rfl rfl rfl mine ?_ (fun _ apart => absurd child apart)
      simp [Slot.setState, state]
    | adopt q =>
      obtain ⟨wait, -, child, -⟩ := ok
      cases done
      exact frame_parent rfl rfl rfl wait fun _ => child
    | passOn q =>
      obtain ⟨-, -, wait, kid, -⟩ := ok
      cases done
      refine frame_parent rfl rfl rfl wait ?_
      exact fun used => family.maker q p used (known.kid q kid).2
    | reap q addr =>
      obtain ⟨-, -, -, pid, found⟩ := ok
      obtain ⟨-, wait, mine, state, -⟩ := known.found q pid found
      cases done
      refine ⟨?_, fun free => absurd wait free, fun free => absurd wait free, fun _ => rfl, ?_⟩
      · intro r free
        have apart : r ≠ q := by
          rintro rfl
          exact free mine
        simp [Kernel.setHist, Kernel.freeproc, Kernel.setParent, Kernel.setSlot, apart]
      intro r used _
      have apart : r ≠ q := by
        rintro rfl
        rw [state] at used
        cases used
      simp [Kernel.setHist, Kernel.freeproc, Kernel.setParent, Kernel.setSlot, apart, used]
    | put x y | stamp f y =>
      cases done
      refine ⟨fun _ _ => rfl, fun _ => rfl, fun _ _ => Iff.rfl, fun free => absurd ok.1 free, ?_⟩
      exact fun _ used _ => ⟨used, rfl⟩
    | save | loadSched | killed | pid | woke w | isUnused q | takePid | clearThread q | parent q
    | zombie q | copyout q addr | waitReturn r | youAThread | get =>
      cases done
      exact frame_same rfl rfl rfl
    | never => cases done
    | pick q | setProc q | loadProc q => cases ok

theorem cpus_wakeIf (cpus : Cpus s l) (here : s.cur c = t) (w : Option (Chan n W))
    (mine : .proc q ∈ (l t).locks) (other : t ≠ .proc q) (locks : h.locks = (l t).locks)
    (mode : h.mode = (l t).mode) : Cpus (s.wakeIf q w) (update l t h) := by
  unfold Kernel.wakeIf
  split
  · rename_i asleep
    refine cpus_same cpus here _ rfl rfl rfl rfl locks mode ?_
    intro r
    by_cases same : r = q
    · right
      rw [same, asleep.1]
      refine ⟨nofun, ?_, mine, other⟩
      simp [Kernel.setState, Kernel.setSlot, Slot.setState]
    left
    simp [Kernel.setState, Kernel.setSlot, same]
  · exact cpus_same cpus here _ rfl rfl rfl rfl locks mode fun _ => .inl rfl

theorem cpus_step (cpus : Cpus s l) (family : Family init s l) (here : s.cur c = t)
    (ok : allows E init t o (l t)) (done : next init c t o s = some (a, s')) :
    Cpus s' (update l t (book E init t.me (l t) o a)) := by
  cases t with
  | sched d =>
    obtain rfl := cpus.place c d here
    cases o with
    | acquire lk =>
      obtain ⟨free, rfl⟩ := acquire_done done
      exact cpus_acquire cpus here free ok.1 rfl rfl (.inr ok.2)
    | release lk =>
      obtain rfl := release_done done
      obtain ⟨mine, idle, -⟩ := ok
      refine cpus_release cpus here mine (book_release_locks _ _ _ _ _) (fun p acting => by cases acting) fun _ => ⟨idle, ?_⟩
      exact (book_release_mode E init (l (.sched d)) (by simp [Thread.me])).trans idle
    | pick q =>
      obtain ⟨state, rfl, rfl⟩ | ⟨rfl, rfl⟩ := test_done done
      · exact cpus_pick cpus here ok.1 ok.2 state rfl rfl
      · exact cpus_same cpus here _ rfl rfl rfl rfl rfl rfl fun _ => .inl rfl
    | setProc named =>
      cases done
      cases named with
      | none => exact cpus_setProc cpus here rfl (.inr ⟨rfl, ok, rfl⟩)
      | some q => exact cpus_setProc cpus here rfl (.inl ⟨q, rfl, ok, rfl⟩)
    | loadProc q =>
      cases done
      exact cpus_loadProc cpus here ok rfl rfl
    | wakeIf q w =>
      cases done
      exact cpus_wakeIf cpus here w ok.1 nofun rfl rfl
    | save | woke w =>
      cases done
      exact cpus_same cpus here _ rfl rfl rfl rfl rfl rfl fun _ => .inl rfl
    | _ => cases ok
  | proc p =>
    have known := family.known p
    cases o with
    | acquire lk =>
      obtain ⟨free, rfl⟩ := acquire_done done
      exact cpus_acquire cpus here free ok.1 rfl rfl (.inl ok.2.1)
    | release lk =>
      obtain rfl := release_done done
      obtain ⟨mine, -, -, own⟩ := ok
      refine cpus_release cpus here mine (book_release_locks _ _ _ _ _) ?_ fun acting => by cases acting
      intro p' acting
      cases acting
      by_cases same : lk = .proc p
      · obtain ⟨prev, -⟩ := own same
        refine .inr ⟨same, prev, ?_⟩
        rcases prev with run | away
        · simp only [book, run]
          exact run
        · simp [book, away, Thread.me, same, Ledger.setMode]
      · exact .inl ⟨same, book_release_mode _ _ _ fun eq => same (by simpa [Thread.me] using eq.symm)⟩
    | sleepRelease w lk =>
      obtain rfl := release_done done
      obtain ⟨run, -, -, mine, other, -⟩ := ok
      refine cpus_release cpus here mine rfl ?_ fun acting => by cases acting
      intro p' acting
      cases acting
      exact .inl ⟨other p, rfl⟩
    | schedCheck =>
      obtain ⟨-, rfl⟩ := check_done done
      exact cpus_same cpus here _ rfl rfl rfl rfl rfl rfl fun _ => .inl rfl
    | checkInit =>
      obtain ⟨-, rfl⟩ := refuse_done done
      exact cpus_same cpus here _ rfl rfl rfl rfl rfl rfl fun _ => .inl rfl
    | loadSched =>
      obtain ⟨⟨st, stage⟩, mine⟩ := ok
      cases done
      exact cpus_loadSched cpus here stage mine rfl rfl
    | goSleep w =>
      cases done
      exact cpus_ownState cpus here _ rfl rfl rfl rfl (show ProcState.sleeping ≠ .running from nofun)
        (fun q => state_setSlot s p q _) ok.2.1 rfl rfl
    | giveUp =>
      cases done
      exact cpus_ownState cpus here _ rfl rfl rfl rfl (show ProcState.runnable ≠ .running from nofun)
        (fun q => state_setSlot s p q _) ok.2.1 rfl rfl
    | setZombie status =>
      cases done
      exact cpus_ownState cpus here _ rfl rfl rfl rfl (show ProcState.zombie ≠ .running from nofun)
        (fun q => state_setSlot s p q _) ok.2.2.2.2.1 rfl rfl
    | clearChan =>
      cases done
      exact cpus_slot cpus here _ rfl rfl rfl rfl rfl rfl rfl (.inl rfl)
    | wakeIf q w =>
      cases done
      refine cpus_wakeIf cpus here w ok.1 ?_ rfl rfl
      intro eq
      cases eq
      exact ok.2 rfl
    | killIf q pid =>
      obtain ⟨-, -, rfl⟩ | ⟨-, rfl⟩ := test_done done
      · refine cpus_slot cpus here _ rfl rfl rfl rfl rfl rfl rfl ?_
        refine (kill_state (s.slot q)).imp_right fun ⟨asleep, up⟩ => ?_
        refine ⟨by rw [asleep]; nofun, by rw [up]; nofun, ok.1, ?_⟩
        intro eq
        cases eq
        rw [state_run cpus here (ok.2 rfl).1] at asleep
        cases asleep
      · exact cpus_same cpus here _ rfl rfl rfl rfl rfl rfl fun _ => .inl rfl
    | setUsed q pid =>
      obtain ⟨other, vacant, -⟩ := ok
      obtain ⟨-, mine, state⟩ := known.vacant q vacant
      cases done
      exact cpus_other cpus here _ rfl rfl rfl rfl rfl rfl rfl (by rw [state]; nofun) nofun mine other
    | freeproc q | setRunnable q =>
      obtain ⟨mine, other, child, -⟩ := ok
      obtain ⟨-, state, -⟩ := known.child q child
      cases done
      exact cpus_other cpus here _ rfl rfl rfl rfl rfl rfl rfl (by rw [state]; nofun) nofun mine other
    | reap q addr =>
      obtain ⟨other, -, -, pid, found⟩ := ok
      obtain ⟨-, -, mine, state, -⟩ := known.found q pid found
      cases done
      exact cpus_other cpus here _ rfl rfl rfl rfl rfl rfl rfl (by rw [state]; nofun) nofun mine other
    | isUnused q =>
      obtain ⟨-, rfl⟩ := Prod.mk.inj (Option.some.inj done)
      cases a with
      | false | true => exact cpus_same cpus here _ rfl rfl rfl rfl rfl rfl fun _ => .inl rfl
    | zombie q =>
      obtain ⟨-, rfl⟩ := Prod.mk.inj (Option.some.inj done)
      cases a with
      | none | some pid => exact cpus_same cpus here _ rfl rfl rfl rfl rfl rfl fun _ => .inl rfl
    | adopt q | passOn q | parent q | save | killed | pid | woke w | takePid | clearThread q
    | copyout q addr | waitReturn r | youAThread | get | put x y | stamp f y =>
      cases done
      exact cpus_same cpus here _ rfl rfl rfl rfl rfl rfl fun _ => .inl rfl
    | never => cases done
    | pick q | setProc q | loadProc q => cases ok

end

end Xv6Kern
