import Xv6.KernelHistory

/- The invariant of the kernel machine, kept by every operation that a ledger allows. -/
namespace Xv6Kern
open Threads Prog Xv6Proc Function
set_option linter.unusedSectionVars false

section
variable {n m : Nat} {X Y W : Type}
variable {k : Ledger n X Y W}

structure ExtOk (E : Ext n X Y W) (s : Kernel n m X W) (l : Thread n m → Ledger n X Y W) : Prop where
  inv : E.inv s.ext
  noted : ∀ p, E.noted p (s.slot p).pid (l (.proc p)).note s.ext
  quits : ∀ p, ¬ Live (s.slot p).state → E.quits (l (.proc p)).note

structure Good (E : Ext n X Y W) (init : Fin n) (s : Kernel n m X W) (l : Thread n m → Ledger n X Y W) : Prop where
  cpus : Cpus s l
  family : Family init s l
  sleeps : Sleeps E s l
  tidy : ∀ t : Thread n m, Tidy init t.me (l t)
  records : Records init s (knows l)
  ext : ExtOk E s l

variable [DecidableEq W] {s s' : Kernel n m X W} {l : Thread n m → Ledger n X Y W} {c : Fin m} {t : Thread n m}
  {p q : Fin n} {h : Ledger n X Y W} {lk : Lk n} {init : Fin n} {E : Ext n X Y W} {o : Op n X Y W} {a : Ans o}
  {calm : Chan n W → Prop}

/-- A pid changes only in a slot whose process cannot act, and who stops acting may do so. -/
def Passes (E : Ext n X Y W) (s s' : Kernel n m X W) (t : Thread n m) (k : Ledger n X Y W) : Prop :=
  ∀ q, ((s'.slot q).pid = (s.slot q).pid ∨ ¬ Live (s.slot q).state) ∧
    (Live (s.slot q).state → Live (s'.slot q).state ∨ t = .proc q ∧ E.quits k.note)

theorem passes_same (slot : s'.slot = s.slot) : Passes E s s' t k := by
  intro q
  rw [slot]
  exact ⟨.inl rfl, .inl⟩

theorem passes_slot {x : Slot n W} (slot : s'.slot = update s.slot q x)
    (pid : x.pid = (s.slot q).pid ∨ ¬ Live (s.slot q).state)
    (state : Live (s.slot q).state → Live x.state ∨ t = .proc q ∧ E.quits k.note) : Passes E s s' t k := by
  intro r
  rw [slot]
  by_cases same : r = q
  · rw [same, update_self]
    exact ⟨pid, state⟩
  rw [update_of_ne same]
  exact ⟨.inl rfl, .inl⟩

theorem passes_kind (kind : ∀ r, (s'.slot r).pid = (s.slot r).pid ∧
    (s'.slot r).xstate = (s.slot r).xstate ∧ ((s'.slot r).state = (s.slot r).state ∨
      (s.slot r).state ≠ .unused ∧ (s.slot r).state ≠ .zombie ∧ Live (s'.slot r).state)) : Passes E s s' t k := by
  intro r
  obtain ⟨pid, -, same | ⟨-, -, live⟩⟩ := kind r
  · rw [same]
    exact ⟨.inl pid, .inl⟩
  · exact ⟨.inl pid, fun _ => .inl live⟩

theorem op_passes (family : Family init s l) (ok : allows E init t o (l t))
    (done : next init c t o s = some (a, s')) : Passes E s s' t (l t) := by
  cases t with
  | sched d =>
    cases o with
    | acquire lk =>
      obtain ⟨-, rfl⟩ := acquire_done done
      exact passes_same rfl
    | release lk =>
      obtain rfl := release_done done
      exact passes_same rfl
    | pick q =>
      obtain ⟨-, -, rfl⟩ | ⟨-, rfl⟩ := test_done done
      · exact passes_slot rfl (.inl rfl) fun _ => .inl ⟨nofun, nofun, nofun⟩
      · exact passes_same rfl
    | wakeIf q w =>
      cases done
      exact passes_kind (slots_wakeIf s q w)
    | setProc q | save | loadProc q | woke w =>
      cases done
      exact passes_same rfl
    | _ => cases ok
  | proc p =>
    have known := family.known p
    cases o with
    | acquire lk =>
      obtain ⟨-, rfl⟩ := acquire_done done
      exact passes_same rfl
    | release lk | sleepRelease w lk =>
      obtain rfl := release_done done
      exact passes_same rfl
    | schedCheck =>
      obtain ⟨-, rfl⟩ := check_done done
      exact passes_same rfl
    | checkInit =>
      obtain ⟨-, rfl⟩ := refuse_done done
      exact passes_same rfl
    | goSleep w | giveUp | setRunnable q =>
      cases done
      exact passes_slot rfl (.inl rfl) fun _ => .inl ⟨nofun, nofun, nofun⟩
    | clearChan =>
      cases done
      exact passes_slot rfl (.inl rfl) .inl
    | wakeIf q w =>
      cases done
      exact passes_kind (slots_wakeIf s q w)
    | killIf q pid =>
      obtain ⟨-, -, rfl⟩ | ⟨-, rfl⟩ := test_done done
      · refine passes_slot rfl (.inl rfl) fun live => .inl ?_
        rcases kill_state (s.slot q) with same | ⟨-, up⟩
        · rw [same]
          exact live
        rw [up]
        exact ⟨nofun, nofun, nofun⟩
      · exact passes_same rfl
    | setUsed q pid =>
      have unused := (known.vacant q ok.2.1).2.2
      cases done
      have dead : ¬ Live (s.slot q).state := fun live => live.1 unused
      exact passes_slot rfl (.inr dead) fun live => absurd live dead
    | freeproc q =>
      obtain ⟨-, used, -⟩ := known.child q ok.2.2.1
      cases done
      have dead : ¬ Live (s.slot q).state := fun live => live.2.1 used
      exact passes_slot rfl (.inr dead) fun live => absurd live dead
    | setZombie status =>
      cases done
      exact passes_slot rfl (.inl rfl) fun _ => .inr ⟨rfl, ok.1⟩
    | reap q addr =>
      obtain ⟨-, -, -, pid, found⟩ := ok
      obtain ⟨-, -, -, zombie, -⟩ := known.found q pid found
      cases done
      have dead : ¬ Live (s.slot q).state := fun live => live.2.2 zombie
      exact passes_slot rfl (.inr dead) fun live => absurd live dead
    | save | loadSched | killed | pid | woke w | isUnused q | takePid | clearThread q | adopt q | parent q
    | passOn q | zombie q | copyout q addr | waitReturn r | youAThread | get | put x y | stamp f y =>
      cases done
      exact passes_same rfl
    | never => cases done
    | pick q | setProc q | loadProc q => cases ok

theorem note_book (E : Ext n X Y W) (init : Fin n) (me : Option (Fin n)) (k : Ledger n X Y W)
    (o : Op n X Y W) (a : Ans o) (put : ∀ x y, o ≠ .put x y) (stamp : ∀ f y, o ≠ .stamp f y) :
    (book E init me k o a).note = k.note := by
  cases o with
  | release lk =>
    obtain ⟨mode, after, -⟩ := book_release E init me k lk
    change (book E init me k (.release lk) ()).note = k.note
    rw [after]
    rfl
  | put x y => exact absurd rfl (put x y)
  | stamp f y => exact absurd rfl (stamp f y)
  | pick q | isUnused q =>
    cases a with
    | false => rfl
    | true => rfl
  | setProc q =>
    cases q with
    | none => rfl
    | some q => rfl
  | zombie q =>
    cases a with
    | none => rfl
    | some pid => rfl
  | _ => rfl

theorem next_ext (done : next init c t o s = some (a, s')) (put : ∀ x y, o ≠ .put x y)
    (stamp : ∀ f y, o ≠ .stamp f y) : s'.ext = s.ext := by
  cases t with
  | sched d =>
    cases o with
    | acquire lk =>
      obtain ⟨-, rfl⟩ := acquire_done done
      rfl
    | release lk =>
      obtain rfl := release_done done
      rfl
    | pick q =>
      obtain ⟨-, -, rfl⟩ | ⟨-, rfl⟩ := test_done done
      · rfl
      · rfl
    | wakeIf q w =>
      cases done
      exact (wakeIf_rest s q w).2.2
    | setProc q | save | loadProc q | woke w =>
      cases done
      rfl
    | _ => cases done
  | proc p =>
    cases o with
    | acquire lk =>
      obtain ⟨-, rfl⟩ := acquire_done done
      rfl
    | release lk | sleepRelease w lk =>
      obtain rfl := release_done done
      rfl
    | schedCheck =>
      obtain ⟨-, rfl⟩ := check_done done
      rfl
    | checkInit =>
      obtain ⟨-, rfl⟩ := refuse_done done
      rfl
    | killIf q pid =>
      obtain ⟨-, -, rfl⟩ | ⟨-, rfl⟩ := test_done done
      · rfl
      · rfl
    | wakeIf q w =>
      cases done
      exact (wakeIf_rest s q w).2.2
    | put x y => exact absurd rfl (put x y)
    | stamp f y => exact absurd rfl (stamp f y)
    | never | pick q | setProc q | loadProc q => cases done
    | _ =>
      cases done
      rfl

theorem ext_same (ext : ExtOk E s l) (passes : Passes E s s' t (l t)) (same : s'.ext = s.ext)
    (note : h.note = (l t).note) : ExtOk E s' (update l t h) := by
  have notes : ∀ p, (update l t h (.proc p)).note = (l (.proc p)).note := by
    intro p
    by_cases acting : t = .proc p
    · rw [← acting, update_self]
      exact note
    · rw [update_of_ne (Ne.symm acting)]
  refine ⟨?_, ?_, ?_⟩
  · rw [same]
    exact ext.inv
  · intro p
    rw [same, notes]
    rcases (passes p).1 with kept | dead
    · rw [kept]
      exact ext.noted p
    · exact E.noted_quits p _ _ _ _ (ext.quits p dead) (ext.noted p)
  intro p dead
  rw [notes]
  by_cases prev : Live (s.slot p).state
  · rcases (passes p).2 prev with live | ⟨rfl, quits⟩
    · exact absurd live dead
    · exact quits
  · exact ext.quits p prev

theorem ext_change (ext : ExtOk E s l) {x : X} {y : Y} (live : Live (s.slot p).state)
    (may : E.may p (s.slot p).pid s.ext (l (.proc p)).note x y) (note : h.note = y) :
    ExtOk E (s.setExt x) (update l (.proc p) h) := by
  refine ⟨E.inv_may p _ _ _ _ _ ext.inv (ext.noted p) may, ?_, ?_⟩
  · intro q
    by_cases acting : q = p
    · rw [acting, update_self, note]
      exact E.noted_may p _ _ _ _ _ ext.inv (ext.noted p) may
    rw [update_of_ne fun eq => acting (Thread.proc.inj eq)]
    exact E.noted_other p _ _ _ _ _ q _ _ ext.inv (ext.noted p) may acting (ext.noted q)
  intro q dead
  have other : q ≠ p := by
    rintro rfl
    exact dead live
  rw [update_of_ne fun eq => other (Thread.proc.inj eq)]
  exact ext.quits q dead

theorem ext_step (cpus : Cpus s l) (family : Family init s l) (ext : ExtOk E s l) (here : s.cur c = t)
    (ok : allows E init t o (l t)) (done : next init c t o s = some (a, s')) :
    ExtOk E s' (update l t (book E init t.me (l t) o a)) := by
  have passes := op_passes family ok done
  have live : ∀ p, t = .proc p → (l t).mode = .run → Live (s.slot p).state := by
    rintro p rfl run
    rw [state_run cpus here run]
    exact ⟨nofun, nofun, nofun⟩
  have stays : (∀ x y, o ≠ .put x y) → (∀ f y, o ≠ .stamp f y) → ExtOk E s' (update l t (book E init t.me (l t) o a)) :=
    fun put stamp => ext_same ext passes (next_ext done put stamp) (note_book E init t.me (l t) o a put stamp)
  cases o with
  | put x y | stamp f y =>
    cases t with
    | sched d => cases ok
    | proc p =>
      obtain ⟨-, run, x₀, view, may⟩ := ok
      have same := ((family.known p).view x₀ view).2
      cases done
      refine ext_change ext (live p rfl run) ?_ rfl
      rw [same]
      exact may _
  | _ => exact stays nofun nofun

def announced (calm : Chan n W → Prop) (s : Kernel n m X W) (l : Thread n m → Ledger n X Y W)
    (t : Thread n m) (o : Op n X Y W) : Prop :=
  o = .killed → ∀ p, t = .proc p → (s.slot p).killed = true → ∀ w, calm w → ¬ (l t).dirty w

theorem answers_fit (cpus : Cpus s l) (family : Family init s l) (here : s.cur c = t)
    (guard : announced calm s l t o) (ok : allows E init t o (l t))
    (done : next init c t o s = some (a, s')) : fits calm init t.me (l t) o a := by
  cases t with
  | sched d =>
    cases o with
    | acquire lk | release lk | pick q | setProc q | save | loadProc q | wakeIf q w | woke w => trivial
    | _ => cases ok
  | proc p =>
    cases o with
    | isUnused q =>
      cases done
      intro same
      rw [Option.some.inj same, state_run cpus here ok.2]
      rfl
    | checkInit =>
      obtain ⟨other, -⟩ := refuse_done done
      exact fun same => other (Option.some.inj same)
    | parent q =>
      cases done
      intro of same
      rw [← Option.some.inj same] at of
      exact family.self q of
    | get =>
      cases done
      intro x view
      exact ((family.known p).view x view).2
    | killed =>
      cases done
      intro killed w calm
      exact guard rfl p rfl killed w calm
    | never => cases done
    | _ => trivial

/-- Every operation that the ledgers allow keeps the invariant. -/
theorem kern_sound (E : Ext n X Y W) (init : Fin n) (calm : Chan n W → Prop) :
    Sound (kernRules (m := m) E init calm) (announced calm) (Good E init) := by
  rintro s l t o a s' good guard ok ⟨c, here, done⟩
  refine ⟨answers_fit good.cpus good.family here guard ok done, ?_⟩
  refine ⟨?_, ?_, ?_, ?_, ?_, ?_⟩
  · exact cpus_step good.cpus good.family here ok done
  · exact family_step good.cpus good.family here ok done
  · exact sleeps_step good.cpus good.family good.sleeps (good.tidy t) here ok done
  · intro u
    by_cases acting : u = t
    · rw [acting, update_self]
      exact tidy_step (good.tidy t) ok
    rw [update_of_ne acting]
    exact good.tidy u
  · exact records_step good.cpus good.family good.tidy good.records here ok done
  · exact ext_step good.cpus good.family good.ext here ok done

end

end Xv6Kern
