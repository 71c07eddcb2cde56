import Xv6.KernelWait

/- All runs of the kernel machine, with timer and device interrupts wherever no lock is held. -/
namespace Xv6Kern
open Threads Prog Xv6Proc
set_option linter.unusedSectionVars false

section
variable {n m : Nat} {X Y W A : Type} [DecidableEq W]
variable {l : Ledger n X Y W} {t : Thread n m}

abbrev Conf (n m : Nat) (X Y W : Type) := Config (Thread n m) (Op n X Y W) Ans (Kernel n m X W) (Ledger n X Y W)

/-- The calls on the data `ext`, and which of them a process may make. -/
structure Calls (n : Nat) (X Y W A : Type) where
  code : Fin n → A → P n X Y W Unit
  may : Fin n → A → Y → Prop

/-- A scheduler schedules; a process that has not run yet starts in forkret; a process does not
    exit with notes that it must not leave. -/
def mayCall (E : Ext n X Y W) (calls : Calls n X Y W A) : Thread n m → Call A → Ledger n X Y W → Prop
  | .sched _, .scheduler, _ => True
  | .sched _, _, _ => False
  | .proc _, .scheduler, _ => False
  | .proc _, .forkret, l => l.mode = .away
  | .proc _, .exit _, l => l.mode = .run ∧ E.quits l.note
  | .proc p, .ext a, l => l.mode = .run ∧ calls.may p a l.note
  | .proc _, _, l => l.mode = .run

def irqOn (_ : Thread n m) (_ : Irq) (l : Ledger n X Y W) : Prop := l.locks = ∅

def KernStep (E : Ext n X Y W) (calls : Calls n X Y W A) (init : Fin n) (calm : Chan n W → Prop)
    (guard : Kernel n m X W → (Thread n m → Ledger n X Y W) → Thread n m → Op n X Y W → Prop) :
    Conf n m X Y W → Signal (Thread n m) (Call A) Irq → Conf n m X Y W → Prop :=
  Runs.Guarded (SignalStep (kernRules E init calm) (Call.code init calls.code) Irq.code)
    (Tame (mayCall E calls) irqOn guard)

/-- The first state: every CPU is in its scheduler, and only init is to run. -/
def boot (init : Fin n) (x : X) : Kernel n m X W where
  slot := fun p => if p = init then ⟨.runnable, none, false, 0, 1⟩ else ⟨.unused, none, false, 0, 0⟩
  parent := fun _ => none
  thread := fun _ => false
  nextpid := 2
  owner := fun _ => none
  noff := fun _ => 0
  cur := fun c => .sched c
  cproc := fun _ => none
  ext := x
  hist := ⟨fun _ => none, fun _ => none, [], [], []⟩

def bootLedger (y : Y) : Thread n m → Ledger n X Y W
  | .sched _ => ⟨∅, .idle, none, fun _ _ _ => False, fun _ => False, none, y, Know.nothing⟩
  | .proc p => ⟨{.proc p}, .away, none, fun _ _ _ => False, fun _ => False, none, y, Know.nothing⟩

def bootConf (init : Fin n) (x : X) (y : Y) : Conf n m X Y W := ⟨boot init x, fun _ => .ret (), bootLedger y⟩

def Rest (t : Thread n m) (l : Ledger n X Y W) : Prop :=
  match t with
  | .sched _ => l.mode = .idle ∧ l.locks = ∅ ∧ l.know = Know.nothing
  | .proc p => Home l.note l ∨ Gone p l.note l

variable {E : Ext n X Y W} {calls : Calls n X Y W A} {init : Fin n} {calm : Chan n W → Prop} {x : X} {y : Y}

theorem boot_good (inv : E.inv x) (noted : ∀ p k, E.noted p k y x) (quits : E.quits y) :
    Good E init (boot (m := m) (W := W) init x) (bootLedger y) := by
  have state : ∀ p : Fin n, ((boot (m := m) (W := W) init x).slot p).state = .unused ∨
      p = init ∧ ((boot (m := m) (W := W) init x).slot p).state = .runnable := by
    intro p
    by_cases same : p = init
    · exact .inr ⟨same, by simp [boot, same]⟩
    · exact .inl (by simp [boot, same])
  have root : ((boot (m := m) (W := W) init x).slot init).state = .runnable := by simp [boot]
  refine ⟨?_, ?_, ?_, ?_, ?_, ?_⟩
  · refine ⟨?_, ?_, ?_, nofun, nofun, ?_, nofun, ?_, ?_⟩
    · intro c lk
      simp [boot, bootLedger]
    · intro c
      simp [boot, bootLedger]
    · intro c c' same
      exact (Thread.sched.inj same).symm
    · exact fun p _ => ⟨rfl, rfl⟩
    · exact fun c _ => rfl
    intro p running
    rcases state p with unused | ⟨-, runnable⟩
    · rw [unused] at running
      cases running
    rw [runnable] at running
    cases running
  · refine ⟨?_, nofun, fun _ => rfl, fun _ _ => rfl, ?_, rfl, nofun, ?_⟩
    · exact fun p => ⟨nofun, nofun, nofun, nofun, nofun, nofun, nofun, nofun⟩
    · intro q p used of
      cases of
    rw [root]
    exact ⟨nofun, nofun, nofun⟩
  · refine ⟨?_, nofun, nofun, ?_⟩
    · intro q sleeping
      rcases state q with unused | ⟨-, runnable⟩
      · rw [unused] at sleeping
        cases sleeping
      rw [runnable] at sleeping
      cases sleeping
    rintro q w lk - ⟨inside, -⟩
    cases inside
  · intro t
    cases t with
    | sched d => exact ⟨nofun, nofun, nofun, fun _ => ⟨rfl, rfl, rfl⟩⟩
    | proc p => exact ⟨nofun, nofun, nofun, nofun⟩
  · have used : ∀ q, ((boot (m := m) (W := W) init x).slot q).state ≠ .unused → q = init := by
      intro q now
      rcases state q with unused | ⟨same, -⟩
      · exact absurd unused now
      · exact same
    have pid : ((boot (m := m) (W := W) init x).slot init).pid = 1 := by simp [boot]
    refine ⟨⟨?_, ?_, nofun, nofun, pid, fun _ exited => absurd rfl exited, fun _ _ _ => rfl, ?_,
      fun _ exited => absurd rfl exited, nofun, ?_⟩, ?_, ⟨nofun, nofun, nofun⟩⟩
    · intro q now
      rw [used q now, pid]
      exact Nat.lt_succ_self 1
    · intro q q' first snd _
      rw [used q first, used q' snd]
    · intro q zombie
      rcases state q with unused | ⟨-, runnable⟩
      · rw [unused] at zombie
        cases zombie
      rw [runnable] at zombie
      cases zombie
    · rintro p (first | snd | third | fourth | fifth)
      · exact absurd rfl first
      · exact absurd rfl snd
      · exact absurd rfl third
      · exact absurd rfl fourth
      · cases fifth
    · exact ⟨List.nodup_nil, nofun, List.nodup_nil, nofun, nofun, nofun, nofun, nofun, nofun⟩
  · refine ⟨inv, fun p => noted p _, fun _ _ => quits⟩

theorem home_after {l k : Ledger n X Y W} (home : Home y l) (after : After l k) : Home y k :=
  ⟨after.locks.trans home.locks, after.mode.trans home.mode, after.bed.trans home.bed,
    fun w => after.dirty ▸ home.dirty w, after.view.trans home.view, after.note.trans home.note,
    after.know.trans home.know⟩

theorem home_able {p : Fin n} (home : Home y l) : Able (.proc p : Thread n m) l :=
  ⟨home.mode, home.bed⟩

theorem home_blank (home : Home y l) : Blank l.know := by
  rw [home.know]
  exact ⟨rfl, rfl, rfl⟩

theorem home_rest {p : Fin n} (home : Home y l) : Rest (.proc p : Thread n m) l := by
  left
  rw [home.note]
  exact home

theorem wakeupUnder_spec (k lk : Nat) (able : Able t l) (empty : l.locks = ∅) (blank : Blank l.know) :
    wp (kernRules E init calm) t (wakeupUnder t.me k lk) l fun _ j => After l j := by
  have free : .other lk ∉ l.locks := by
    rw [empty]
    exact Finset.notMem_empty _
  apply wp_acquire able free
  refine wp_seq (wakeup_spec rfl _ _ able ?_ blank fun q missing => absurd (List.mem_finRange q) missing) ?_
  · intro q _
    change Lk.proc q ∉ insert (Lk.other lk) l.locks
    rw [empty]
    simp
  rintro _ j ⟨after, -⟩
  have held : .other lk ∈ j.locks := by
    rw [after.locks]
    exact Finset.mem_insert_self _ _
  refine wp_last (wp_release (after_able after able) held (settled_of _ _ nofun nofun) nofun ?_)
  refine wp_pure ⟨?_, after.mode, after.bed, ?_, after.view, after.note, after.know, ?_⟩
  · change j.locks.erase (.other lk) = l.locks
    rw [after.locks]
    exact Finset.erase_insert free
  · exact (drop_dirty j (show Lk.other lk ≠ .wait from nofun) nofun).trans after.dirty
  rw [empty]
  intro lk' holds
  cases holds

theorem sleepUnder_spec {p : Fin n} (k lk : Nat) (home : Home y l) :
    procWp m E init calm p (do
        act (.acquire (.other lk))
        sleep p (.other k) (.other lk)
        act (.release (.other lk))) l fun _ j => Home y j := by
  have free : .other lk ∉ l.locks := by
    rw [home.locks]
    exact Finset.notMem_empty _
  have locks : insert (Lk.other lk) l.locks = {.other lk} := by
    rw [home.locks]
    rfl
  have able : Able (.proc p : Thread n m) (l.setLocks (insert (.other lk) l.locks)) := ⟨home.mode, home.bed⟩
  apply wp_acquire (home_able home) free
  refine wp_sleep able locks nofun (settled_of _ _ nofun nofun) (.inl rfl) nofun trivial
    (show Blank l.know from home_blank home) ?_
  intro j slept
  have held : .other lk ∈ j.locks := sole_lock slept.locks
  refine wp_last (wp_release ⟨slept.mode, slept.bed⟩ held (settled_of _ _ nofun nofun) nofun ?_)
  refine wp_pure ⟨?_, slept.mode, slept.bed, ?_, ?_, slept.note.trans home.note, ?_⟩
  · change j.locks.erase (.other lk) = ∅
    rw [slept.locks]
    simp
  · rintro w ⟨-, owes⟩
    rw [slept.dirty] at owes
    exact home.dirty w owes.2
  · exact slept.view.trans home.view
  · exact slept.know.trans home.know

theorem rest_call {what : Call A} (rest : Rest t l)
    (may : mayCall E calls t what l) (ext : ∀ p a y (l : Ledger n X Y W), Home y l → calls.may p a y →
      procWp m E init calm p (calls.code p a) l fun _ k => ∃ y, Home y k) :
    wp (kernRules E init calm) t (Call.code init calls.code t what) l fun _ k => Rest t k := by
  cases t with
  | sched d =>
    obtain ⟨idle, empty, know⟩ := rest
    cases what with
    | scheduler =>
      refine wp_mono (scheduler_spec (List.finRange n) idle empty ?_) ?_
      · rw [know]
        exact ⟨rfl, rfl, rfl⟩
      · exact fun _ k after => ⟨after.mode.trans idle, after.locks.trans empty, after.know.trans know⟩
    | _ => cases may
  | proc p =>
    have all : ∀ q, q ∈ List.finRange n := List.mem_finRange
    have home : l.mode = .run → Home l.note l := by
      intro run
      rcases rest with home | gone
      · exact home
      · cases gone.mode.symm.trans run
    cases what with
    | scheduler => cases may
    | forkret =>
      rcases rest with at_home | gone
      · cases at_home.mode.symm.trans may
      apply wp_mono (forkret_spec may gone.locks gone.bed)
      rintro _ k rfl
      left
      refine ⟨?_, rfl, gone.bed, ?_, gone.view, rfl, ?_⟩
      · change l.locks.erase (.proc p) = ∅
        rw [gone.locks]
        simp
      · exact fun w owes => gone.dirty w owes.2
      change (l.know.setVacant none).setFound none = Know.nothing
      rw [gone.know]
      rfl
    | fork frame table copy =>
      have home := home may
      apply wp_mono (fork_spec (home_able home) home.locks home.know home.dirty frame table copy _)
      exact fun _ k after => home_rest (home_after home after)
    | exit status =>
      apply wp_mono (exit_spec (home may.1) may.2 status _ all)
      intro _ k gone
      right
      rw [gone.note]
      exact gone
    | wait addr valid turns =>
      exact wp_mono (wait_spec (home may) addr valid turns _ all) fun _ k home => home_rest home
    | kill pid =>
      have home := home may
      apply wp_mono (kill_spec pid _ (home_able home) home.locks (home_blank home))
      exact fun _ k after => home_rest (home_after home after)
    | sleep k lk => exact wp_mono (sleepUnder_spec k lk (home may)) fun _ j home => home_rest home
    | wakeup k lk =>
      have home := home may
      refine wp_mono (wakeupUnder_spec (t := .proc p) k lk (home_able home) home.locks (home_blank home)) ?_
      exact fun _ j after => home_rest (home_after home after)
    | ext a =>
      apply wp_mono (ext p a l.note l (home may.1) may.2)
      rintro _ k ⟨y, home⟩
      exact home_rest home

theorem wp_tidy {B : Type} {post : B → Ledger n X Y W → Prop}
    {z : P n X Y W B} (holds : wp (kernRules E init calm) t z l post) (tidy : Tidy init t.me l) :
    wp (kernRules E init calm) t z l fun b k => post b k ∧ Tidy init t.me k := by
  induction z generalizing l with
  | ret b => exact ⟨holds, tidy⟩
  | op o f ih =>
    refine ⟨holds.1, fun a fits => ih a (holds.2 a fits) ?_⟩
    exact tidy_step (l := fun _ => l) tidy holds.1

variable {s : Kernel n m X W} {l : Thread n m → Ledger n X Y W} {t : Thread n m}

theorem unlocked (good : Good E init s l) (empty : (l t).locks = ∅) : Able t (l t) ∧ Blank (l t).know := by
  have none : ∀ lk, lk ∉ (l t).locks := by
    intro lk
    rw [empty]
    exact Finset.notMem_empty lk
  cases t with
  | sched d =>
    have here : s.cur d = .sched d := by
      cases thread : s.cur d with
      | sched d' => rw [good.cpus.place d d' thread]
      | proc q =>
        have locks := (good.cpus.busy d q thread).2.2
        exact absurd (locks ▸ Finset.mem_singleton_self _) (none (.proc q))
    have ok := good.cpus.idle d here
    refine ⟨?_, ?_⟩
    · unfold SchedOk at ok
      cases mode : (l (.sched d)).mode with
      | idle => exact mode
      | picked q | named q | gone q =>
        rw [mode] at ok
        exact absurd (ok.2.1 ▸ Finset.mem_singleton_self _) (none (.proc q))
      | run | ready st | away =>
        rw [mode] at ok
        exact ok.elim
    rw [((good.tidy (.sched d)).sched rfl).1]
    exact ⟨rfl, rfl, rfl⟩
  | proc p =>
    have known := good.family.known p
    obtain ⟨c, here⟩ : ∃ c, s.cur c = .proc p := by
      by_contra off
      have locks := (good.cpus.off p fun c there => off ⟨c, there⟩).2
      exact none (.proc p) (locks ▸ Finset.mem_singleton_self _)
    have ok := good.cpus.on c p here
    have found : (l (.proc p)).know.found = Option.none := by
      by_contra some
      obtain ⟨⟨q, k⟩, found⟩ := Option.ne_none_iff_exists'.mp some
      exact none _ (known.found q k found).2.1
    refine ⟨⟨?_, ?_⟩, ?_, found, ?_⟩
    · unfold RunOk at ok
      cases mode : (l (.proc p)).mode with
      | run => rfl
      | ready st =>
        rw [mode] at ok
        exact absurd ok.2.2 (none _)
      | away =>
        rw [mode] at ok
        exact absurd ok.2 (none _)
      | idle | picked q | named q | gone q =>
        rw [mode] at ok
        exact ok.elim
    · by_contra some
      obtain ⟨⟨w, lk⟩, inside⟩ := Option.ne_none_iff_exists'.mp some
      exact none _ (good.sleeps.bed p w lk inside).2.2.2
    · by_contra some
      obtain ⟨q, vacant⟩ := Option.ne_none_iff_exists'.mp some
      exact none _ (known.vacant q vacant).2.1
    by_contra some
    obtain ⟨addr, copied⟩ := Option.ne_none_iff_exists'.mp some
    obtain ⟨q, k, seen, -⟩ := good.records.returns.copied p addr copied
    cases found.symm.trans seen

theorem handler_spec (good : Good E init s l) (irq : Irq) (empty : (l t).locks = ∅) :
    wp (kernRules E init calm) t (Irq.code t irq) (l t) fun _ k => k = l t := by
  obtain ⟨able, blank⟩ := unlocked good empty
  have after : wp (kernRules E init calm) t (Irq.code t irq) (l t) fun _ k => After (l t) k := by
    cases irq with
    | timer =>
      cases t with
      | sched d => exact wp_pure (after_refl _)
      | proc p => exact yield_spec able empty blank
    | device k lk =>
      cases t with
      | sched d => exact wakeupUnder_spec (t := .sched d) k lk able empty blank
      | proc p => exact wakeupUnder_spec (t := .proc p) k lk able empty blank
  apply wp_mono (wp_tidy after (good.tidy t))
  rintro _ k ⟨after, tidy⟩
  have awake : k.awake = (l t).awake := by
    funext lk w q
    refine propext ⟨fun told => ?_, fun told => ?_⟩
    · have holds := tidy.awake lk w q told
      rw [after.locks, empty] at holds
      cases holds
    have holds := (good.tidy t).awake lk w q told
    rw [empty] at holds
    cases holds
  obtain ⟨locks, mode, bed, dirty, view, note, know, -⟩ := after
  cases k
  cases entry : l t
  simp_all

theorem ledger_step {guard : Kernel n m X W → (Thread n m → Ledger n X Y W) → Thread n m → Op n X Y W → Prop}
    {c c' : Conf n m X Y W} {e : Signal (Thread n m) (Call A) Irq}
    (step : KernStep E calls init calm guard c e c') (q : Fin n) :
    c'.ledger (.proc q) = c.ledger (.proc q) ∧ e ≠ .own (.step (.proc q)) ∨
      ∃ o k a, e = .own (.step (.proc q)) ∧ c.code (.proc q) = .op o k ∧
        c'.ledger (.proc q) = book E init (some q) (c.ledger (.proc q)) o a := by
  obtain ⟨-, step⟩ := step
  cases step with
  | interrupt t h => exact .inl ⟨rfl, nofun⟩
  | own step =>
    cases step with
    | start what rest => exact .inl ⟨rfl, nofun⟩
    | @step t o k a s' next done =>
      by_cases acting : t = .proc q
      · subst acting
        refine .inr ⟨o, k, a, rfl, next, ?_⟩
        simp only [Function.update_self]
        rfl
      refine .inl ⟨?_, ?_⟩
      · simp only [Function.update_of_ne (Ne.symm acting)]
      intro same
      cases same
      exact acting rfl

theorem not_stranded (good : Good E init s l) {w : Chan n W} {lk : Lk n} {q : Fin n}
    (guards : guardOf w = some lk) (free : s.owner lk = none) (asleep : (s.slot q).state = .sleeping)
    (chan : (s.slot q).chan = some w) : ¬ Ready E s w := by
  intro ready
  obtain ⟨w', lk', inside, same⟩ := good.sleeps.chan q asleep
  rw [chan] at same
  cases same
  obtain rfl : lk' = lk := by
    rcases (good.sleeps.bed q w lk' inside).1 with none | some
    · rw [guards] at none
      cases none
    rw [guards] at some
    exact (Option.some.inj some).symm
  obtain ⟨d, held, -⟩ := good.sleeps.clean q w lk' guards ⟨inside, .inl asleep⟩ ready
  have owner := (good.cpus.own d lk').mpr held
  rw [free] at owner
  cases owner

/-- Every run of the machine stays safe, where the calls on the data keep to their rules. -/
theorem kern_runs {guard : Kernel n m X W → (Thread n m → Ledger n X Y W) → Thread n m → Op n X Y W → Prop}
    (within : ∀ s l t o, guard s l t o → announced calm s l t o) (inv : E.inv x)
    (noted : ∀ p k, E.noted p k y x) (quits : E.quits y)
    (ext : ∀ p a y (l : Ledger n X Y W), Home y l → calls.may p a y →
      procWp m E init calm p (calls.code p a) l fun _ k => ∃ y, Home y k)
    {es : List (Signal (Thread n m) (Call A) Irq)} {d : Conf n m X Y W}
    (run : Runs.Run (KernStep E calls init calm guard) (bootConf init x y) es d) :
    Safe (kernRules E init calm) (Good E init) Rest d := by
  have sound : Sound (kernRules E init calm) guard (Good E init) := fun s l t o a s' good meets =>
    kern_sound E init calm s l t o a s' good (within s l t o meets)
  refine safe_signals sound (fun t what l rest may => rest_call rest may ext)
    (fun s l t irq good empty => handler_spec good irq empty) ⟨boot_good inv noted quits, ?_⟩ run
  intro t
  cases t with
  | sched d => exact ⟨rfl, rfl, rfl⟩
  | proc p => exact .inr ⟨rfl, rfl, rfl, fun _ => id, rfl, rfl, rfl⟩

end

/- Closed runs. -/
section
variable {n m : Nat} {X Y W A : Type} [DecidableEq W] (E : Ext n X Y W) (calls : Calls n X Y W A)
  (init : Fin n) (calm : Chan n W → Prop) [DecidablePred E.quits] [∀ p a y, Decidable (calls.may p a y)]

instance (t : Thread n m) (what : Call A) (l : Ledger n X Y W) : Decidable (mayCall E calls t what l) :=
  match t, what with
  | .sched _, .scheduler => .isTrue trivial
  | .sched _, .forkret | .sched _, .fork _ _ _ | .sched _, .exit _ | .sched _, .wait _ _ _
  | .sched _, .kill _ | .sched _, .sleep _ _ | .sched _, .wakeup _ _ | .sched _, .ext _
  | .proc _, .scheduler => .isFalse id
  | .proc _, .forkret => inferInstanceAs (Decidable (l.mode = .away))
  | .proc _, .exit _ => inferInstanceAs (Decidable (l.mode = .run ∧ E.quits l.note))
  | .proc p, .ext a => inferInstanceAs (Decidable (l.mode = .run ∧ calls.may p a l.note))
  | .proc _, .fork _ _ _ | .proc _, .wait _ _ _ | .proc _, .kill _ | .proc _, .sleep _ _
  | .proc _, .wakeup _ _ => inferInstanceAs (Decidable (l.mode = .run))

instance (c : Conf n m X Y W) (e : Signal (Thread n m) (Call A) Irq) :
    Decidable (Tame (mayCall E calls) irqOn free c e) :=
  match e with
  | .own e => decidable_of_iff (Permits (mayCall E calls) c e) ⟨fun permits => ⟨permits, meets_free c e⟩, And.left⟩
  | .interrupt t _ => inferInstanceAs (Decidable ((c.ledger t).locks = ∅))

def nextOn (t : Thread n m) (o : Op n X Y W) (s : Kernel n m X W) : Option (Ans o × Kernel n m X W) :=
  ((List.finRange m).find? fun c => s.cur c = t).bind fun c => next init c t o s

def kernNext (c : Conf n m X Y W) (e : Signal (Thread n m) (Call A) Irq) : Option (Conf n m X Y W) :=
  if Tame (mayCall E calls) irqOn free c e then
    signalNext (kernRules E init calm) (nextOn init) (Call.code init calls.code) Irq.code c e
  else none

theorem kernNext_step (c : Conf n m X Y W) (e : Signal (Thread n m) (Call A) Irq) (d : Conf n m X Y W)
    (done : kernNext E calls init calm c e = some d) : KernStep E calls init calm free c e d := by
  unfold kernNext at done
  split at done
  · rename_i tame
    refine ⟨tame, signalNext_step _ _ ?_ c e d done⟩
    intro t o s a s' performed
    obtain ⟨cpu, found, performed⟩ := Option.bind_eq_some_iff.mp performed
    have here := List.find?_some found
    exact ⟨cpu, of_decide_eq_true here, performed⟩
  · cases done

def unkilled (c : Conf n m X Y W) : Signal (Thread n m) (Call A) Irq → Bool
  | .own (.step (.proc p)) => !(c.state.slot p).killed
  | _ => true

def calmNext (c : Conf n m X Y W) (e : Signal (Thread n m) (Call A) Irq) : Option (Conf n m X Y W) :=
  if unkilled c e then kernNext E calls init calm c e else none

theorem calmNext_step (c : Conf n m X Y W) (e : Signal (Thread n m) (Call A) Irq) (d : Conf n m X Y W)
    (done : calmNext E calls init calm c e = some d) : KernStep E calls init calm (announced calm) c e d := by
  unfold calmNext at done
  split at done
  · rename_i alive
    obtain ⟨tame, step⟩ := kernNext_step E calls init calm c e d done
    refine ⟨?_, step⟩
    match e, tame with
    | .interrupt t h, tame => exact tame
    | .own (.start t what), tame => exact tame
    | .own (.step t), tame =>
      refine ⟨tame.1, ?_⟩
      rintro o k - - p rfl killed
      simp [unkilled, killed] at alive
  · cases done

end

end Xv6Kern
