import Xv6.KernelFamily

/- No wakeup is lost. A process gives up lk in sleep while it holds its own lock, which wakeup
   needs; so whoever holds lk after that finds it SLEEPING. Where a condition comes true, the
   holder of its lock owes a wakeup until it releases the lock. -/
namespace Xv6Kern
open Threads Prog Xv6Proc Function Finset
set_option linter.unusedSectionVars false

section
variable {n m : Nat} {X Y W : Type}
variable {w : Chan n W} {k : Ledger n X Y W}

/-- The process is in sleep(w, lk), past its release of lk, and nobody has woken it. -/
def Abed (s : Kernel n m X W) (l : Thread n m → Ledger n X Y W) (q : Fin n) (w : Chan n W) (lk : Lk n) : Prop :=
  (l (.proc q)).bed = some (w, lk) ∧ ((s.slot q).state = .sleeping ∨ (l (.proc q)).mode = .run)

def Ready (E : Ext n X Y W) (s : Kernel n m X W) : Chan n W → Prop
  | .proc r => ∃ q, s.parent q = some r ∧ (s.slot q).state = .zombie
  | .ext w => E.ready w s.ext
  | .other _ => False

structure Sleeps (E : Ext n X Y W) (s : Kernel n m X W) (l : Thread n m → Ledger n X Y W) : Prop where
  chan : ∀ q, (s.slot q).state = .sleeping →
    ∃ w lk, (l (.proc q)).bed = some (w, lk) ∧ (s.slot q).chan = some w
  bed : ∀ q w lk, (l (.proc q)).bed = some (w, lk) → (guardOf w = none ∨ guardOf w = some lk) ∧
    (∀ r, lk ≠ .proc r) ∧ lk ∉ (l (.proc q)).locks ∧ .proc q ∈ (l (.proc q)).locks
  awake : ∀ c lk w q, lk ∈ (l (s.cur c)).locks → (l (s.cur c)).awake lk w q → ¬ Abed s l q w lk
  clean : ∀ q w lk, guardOf w = some lk → Abed s l q w lk → Ready E s w →
    ∃ c, lk ∈ (l (s.cur c)).locks ∧ (l (s.cur c)).dirty w

variable {s s' : Kernel n m X W} {l : Thread n m → Ledger n X Y W} {c c' : Fin m} {t : Thread n m} {p q : Fin n}
  {h : Ledger n X Y W} {lk : Lk n} {init : Fin n} {E : Ext n X Y W}

theorem guardOf_ne (guards : guardOf w = some lk) (r : Fin n) : lk ≠ .proc r := by
  rintro rfl
  cases w with
  | proc q => cases guards
  | ext v => cases guards
  | other k => cases guards

theorem ready_same (slot : s'.slot = s.slot) (parent : s'.parent = s.parent) (ext : s'.ext = s.ext)
    (w : Chan n W) : Ready E s' w ↔ Ready E s w := by
  cases w with
  | proc r => simp only [Ready, slot, parent]
  | ext v => simp only [Ready, ext]
  | other k => rfl

theorem sleeps_keep (cpus : Cpus s l) (sleeps : Sleeps E s l) (here : s.cur c = t) (cur : s'.cur = s.cur)
    (states : ∀ q, (s'.slot q).state = .sleeping → (s.slot q).state = .sleeping ∨ t = .proc q ∧ (l t).mode = .run)
    (chan : ∀ q, (s'.slot q).state = .sleeping →
      ∃ w lk, (update l t h (.proc q)).bed = some (w, lk) ∧ (s'.slot q).chan = some w)
    (bed : ∀ b, h.bed = some b → (l t).bed = some b) (mode : h.bed ≠ none → h.mode = .run → (l t).mode = .run)
    (locks : (l t).bed ≠ none → h.locks ⊆ (l t).locks) (own : ∀ p, t = .proc p → h.bed ≠ none → .proc p ∈ h.locks)
    (awake : ∀ lk w q, lk ∈ h.locks → h.awake lk w q → (lk ∈ (l t).locks ∧ (l t).awake lk w q) ∨
      ¬ Abed s' (update l t h) q w lk) (ready : ∀ q w lk, guardOf w = some lk → Abed s l q w lk → Ready E s' w →
      Ready E s w ∨ lk ∈ h.locks ∧ h.dirty w)
    (dirty : ∀ q w lk, guardOf w = some lk → Abed s l q w lk → lk ∈ (l t).locks → (l t).dirty w →
      lk ∈ h.locks ∧ h.dirty w) : Sleeps E s' (update l t h) := by
  have abed : ∀ q w lk, Abed s' (update l t h) q w lk → Abed s l q w lk := by
    rintro q w lk ⟨inside, asleep⟩
    by_cases acting : t = .proc q
    · rw [← acting, update_self] at inside asleep
      have prev := bed _ inside
      rw [acting] at prev
      refine ⟨prev, ?_⟩
      rw [← acting]
      rcases asleep with sleeping | run
      · exact (states q sleeping).imp id And.right
      · exact .inr (mode (by rw [inside]; nofun) run)
    rw [update_of_ne (Ne.symm acting)] at inside asleep
    refine ⟨inside, ?_⟩
    rcases asleep with sleeping | run
    · exact .inl ((states q sleeping).resolve_right fun other => acting other.1)
    · exact .inr run
  refine ⟨chan, ?_, ?_, ?_⟩
  · intro q w lk inside
    by_cases acting : t = .proc q
    · rw [← acting, update_self] at inside ⊢
      have prev := bed _ inside
      rw [acting] at prev
      obtain ⟨guards, free, apart, -⟩ := sleeps.bed q w lk prev
      refine ⟨guards, free, ?_, ?_⟩
      · intro holds
        apply apart
        rw [← acting]
        exact locks (by rw [acting, prev]; nofun) holds
      · exact own q acting (by rw [inside]; nofun)
    rw [update_of_ne (Ne.symm acting)] at inside ⊢
    exact sleeps.bed q w lk inside
  · intro c' lk w q holds told
    rw [cur, update_cur cpus here] at holds told
    by_cases same : c' = c
    · rw [if_pos same] at holds told
      rcases awake lk w q holds told with ⟨held, prev⟩ | up
      · intro now
        rw [← here] at held prev
        exact sleeps.awake c lk w q held prev (abed q w lk now)
      · exact up
    rw [if_neg same] at holds told
    intro now
    exact sleeps.awake c' lk w q holds told (abed q w lk now)
  intro q w lk guards now true'
  have prev := abed q w lk now
  rw [cur]
  rcases ready q w lk guards prev true' with old | owes
  · obtain ⟨d, holds, owes⟩ := sleeps.clean q w lk guards prev old
    refine ⟨d, ?_⟩
    rw [update_cur cpus here]
    by_cases same : d = c
    · rw [if_pos same]
      rw [same, here] at holds owes
      exact dirty q w lk guards prev holds owes
    rw [if_neg same]
    exact ⟨holds, owes⟩
  refine ⟨c, ?_⟩
  rw [update_cur cpus here, if_pos rfl]
  exact owes

theorem bed_update (bed : h.bed = (l t).bed) (q : Fin n) : (update l t h (.proc q)).bed = (l (.proc q)).bed := by
  by_cases acting : t = .proc q
  · rw [← acting, update_self, bed]
  · rw [update_of_ne (Ne.symm acting)]

/-- Wakeups are recorded under locks that are held, and owed under the lock of the condition. A
    process that passes its children on holds wait_lock; a scheduler knows of no slots. -/
structure Tidy (init : Fin n) (me : Option (Fin n)) (k : Ledger n X Y W) : Prop where
  awake : ∀ lk w q, k.awake lk w q → lk ∈ k.locks
  dirty : ∀ w, k.dirty w → ∃ lk ∈ k.locks, guardOf w = some lk
  leaving : k.know.leaving = true → .wait ∈ k.locks ∧ me ≠ some init
  sched : me = none → k.know = Know.nothing ∧ k.view = none ∧ k.bed = none

structure Apart (k h : Ledger n X Y W) : Prop where
  bed : h.bed = k.bed
  mode : h.mode = .run → k.mode = .run
  grown : k.locks ⊆ h.locks
  locks : k.bed ≠ none → h.locks ⊆ k.locks
  awake : h.awake = k.awake
  dirty : ∀ w, k.dirty w → h.dirty w

theorem sleeps_same (cpus : Cpus s l) (sleeps : Sleeps E s l) (tidy : Tidy init t.me (l t)) (here : s.cur c = t)
    (cur : s'.cur = s.cur) (states : ∀ q, (s'.slot q).state = .sleeping →
      (s.slot q).state = .sleeping ∧ (s'.slot q).chan = (s.slot q).chan)
    (ready : ∀ q w lk, guardOf w = some lk → Abed s l q w lk → Ready E s' w → Ready E s w ∨ lk ∈ h.locks ∧ h.dirty w)
    (apart : Apart (l t) h) : Sleeps E s' (update l t h) := by
  refine sleeps_keep cpus sleeps here cur ?_ ?_ ?_ ?_ apart.locks ?_ ?_ ready ?_
  · exact fun q now => .inl (states q now).1
  · intro q now
    obtain ⟨prev, chan⟩ := states q now
    obtain ⟨w, lk, inside, named⟩ := sleeps.chan q prev
    exact ⟨w, lk, (bed_update apart.bed q).trans inside, chan.trans named⟩
  · intro b now
    exact apart.bed.symm.trans now
  · exact fun _ now => apart.mode now
  · rintro p rfl inside
    rw [apart.bed] at inside
    obtain ⟨⟨w, lk⟩, now⟩ := Option.ne_none_iff_exists'.mp inside
    exact apart.grown (sleeps.bed p w lk now).2.2.2
  · intro lk w q _ now
    rw [apart.awake] at now
    exact .inl ⟨tidy.awake lk w q now, now⟩
  intro q w lk _ _ holds prev
  exact ⟨apart.grown holds, apart.dirty w prev⟩

theorem ready_mono (ext : s'.ext = s.ext) (zombies : ∀ q, (s'.slot q).state = .zombie →
    (s.slot q).state = .zombie ∧ s'.parent q = s.parent q) (w : Chan n W) (now : Ready E s' w) : Ready E s w := by
  cases w with
  | proc r =>
    obtain ⟨q, of, dead⟩ := now
    obtain ⟨prev, same⟩ := zombies q dead
    exact ⟨q, same.symm.trans of, prev⟩
  | ext v =>
    rw [Ready, ext] at now
    exact now
  | other k => exact now

section
variable (cpus : Cpus s l) (sleeps : Sleeps E s l)
include cpus sleeps

section
variable (tidy : Tidy init t.me (l t)) (here : s.cur c = t) (cur : s'.cur = s.cur)
include tidy here cur

theorem sleeps_slot {x : Slot n W} (slot : s'.slot = update s.slot q x) (ext : s'.ext = s.ext)
    (parent : ∀ r, r ≠ q ∨ x.state = .zombie → s'.parent r = s.parent r)
    (asleep : x.state = .sleeping → (s.slot q).state = .sleeping ∧ x.chan = (s.slot q).chan)
    (dead : x.state = .zombie → (s.slot q).state = .zombie) (apart : Apart (l t) h) : Sleeps E s' (update l t h) := by
  refine sleeps_same cpus sleeps tidy here cur ?_ (fun _ w _ _ _ now => .inl (ready_mono ext ?_ w now)) apart
  · intro r now
    rw [slot] at now ⊢
    by_cases same : r = q
    · rw [same, update_self] at now ⊢
      exact asleep now
    rw [update_of_ne same] at now ⊢
    exact ⟨now, rfl⟩
  intro r now
  rw [slot] at now
  by_cases same : r = q
  · rw [same, update_self] at now
    rw [same]
    exact ⟨dead now, parent q (.inr now)⟩
  rw [update_of_ne same] at now
  exact ⟨now, parent r (.inl same)⟩

theorem sleeps_still (slot : s'.slot = s.slot) (parent : s'.parent = s.parent) (ext : s'.ext = s.ext)
    (apart : Apart (l t) h) : Sleeps E s' (update l t h) := by
  refine sleeps_same cpus sleeps tidy here cur ?_
    (fun _ w _ _ _ now => .inl ((ready_same slot parent ext w).mp now)) apart
  intro q now
  rw [slot] at now ⊢
  exact ⟨now, rfl⟩

theorem sleeps_ext (slot : s'.slot = s.slot) (parent : s'.parent = s.parent) (holds : .ext ∈ (l t).locks)
    (owes : ∀ v, ¬ E.ready v s.ext → E.ready v s'.ext → h.dirty (.ext v)) (bed : h.bed = (l t).bed)
    (mode : h.mode = .run → (l t).mode = .run) (locks : h.locks = (l t).locks) (awake : h.awake = (l t).awake)
    (dirty : ∀ w, (l t).dirty w → h.dirty w) : Sleeps E s' (update l t h) := by
  refine sleeps_same cpus sleeps tidy here cur ?_ ?_ ⟨bed, mode, by rw [locks], fun _ => by rw [locks], awake, dirty⟩
  · intro q now
    rw [slot] at now ⊢
    exact ⟨now, rfl⟩
  intro r w lk guards _ now
  cases w with
  | proc r' =>
    simp only [Ready, slot, parent] at now
    exact .inl now
  | ext v =>
    by_cases prev : E.ready v s.ext
    · exact .inl prev
    cases guards
    rw [locks]
    exact .inr ⟨holds, owes v prev now⟩
  | other k => exact .inl now

end

theorem sleeps_release (here : s.cur c = t) (cur : s'.cur = s.cur)
    (slot : s'.slot = s.slot) (parent : s'.parent = s.parent) (ext : s'.ext = s.ext)
    (settled : Settled t.me (l t) lk) (locks : h.locks = (l t).locks.erase lk)
    (awake : h.awake = ((l t).drop lk).awake) (dirty : h.dirty = ((l t).drop lk).dirty)
    (bed : h.bed = (l t).bed) (own : ∀ p, t = .proc p → lk = .proc p → (l t).bed = none)
    (mode : h.mode = (l t).mode ∨ (l t).bed = none) : Sleeps E s' (update l t h) := by
  refine sleeps_keep cpus sleeps here cur ?_ ?_ ?_ ?_ ?_ ?_ ?_ 
    (fun q w lk _ _ now => .inl ((ready_same slot parent ext w).mp now)) ?_
  · intro q now
    rw [slot] at now
    exact .inl now
  · intro q now
    rw [slot] at now ⊢
    obtain ⟨w, lk, inside, named⟩ := sleeps.chan q now
    exact ⟨w, lk, (bed_update bed q).trans inside, named⟩
  · intro b now
    exact bed.symm.trans now
  · intro inside now
    rcases mode with same | none
    · exact same.symm.trans now
    · exact absurd (bed.trans none) inside
  · intro _
    rw [locks]
    exact erase_subset _ _
  · rintro p acting inside
    rw [bed] at inside
    obtain ⟨⟨w, lk'⟩, now⟩ := Option.ne_none_iff_exists'.mp inside
    rw [locks]
    refine mem_erase.mpr ⟨fun same => inside (own p acting same.symm), ?_⟩
    rw [acting] at now ⊢
    exact (sleeps.bed p w lk' now).2.2.2
  · intro lk' w q holds told
    rw [awake] at told
    rw [locks] at holds
    exact .inl ⟨mem_of_mem_erase holds, told.2⟩
  intro q w lk' guards inside holds owes
  have other : lk' ≠ lk := by
    rintro rfl
    refine sleeps.awake c lk' w q (by rw [here]; exact holds) ?_ inside
    rw [here]
    apply settled w guards owes q
    intro me
    cases t with
    | sched d => cases me
    | proc p =>
      rw [← Option.some.inj me] at holds
      exact (sleeps.bed q w lk' inside.1).2.2.1 holds
  rw [locks, dirty]
  refine ⟨mem_erase.mpr ⟨other, holds⟩, ?_, owes⟩
  rw [guards]
  exact fun same => other (Option.some.inj same)

theorem sleeps_enter (here : s.cur c = .proc p) (cur : s'.cur = s.cur) (slot : s'.slot = s.slot)
    (parent : s'.parent = s.parent) (ext : s'.ext = s.ext) (state : (s.slot p).state = .running)
    (mine : .proc p ∈ (l (.proc p)).locks) (held : lk ∈ (l (.proc p)).locks) (free : ∀ q, lk ≠ .proc q)
    (empty : (l (.proc p)).bed = none) (settled : Settled (some p) (l (.proc p)) lk)
    (guards : guardOf w = none ∨ guardOf w = some lk) (waits : ¬ Ready E s w) :
    Sleeps E s' (update l (.proc p) (((l (.proc p)).drop lk).setBed (some (w, lk)))) := by
  have others : ∀ q w' lk', q ≠ p → (Abed s' (update l (.proc p)
      (((l (.proc p)).drop lk).setBed (some (w, lk)))) q w' lk' ↔ Abed s l q w' lk') := by
    intro q w' lk' other
    unfold Abed
    rw [update_of_ne fun same => other (Thread.proc.inj same), slot]
  have self : ∀ w' lk', Abed s' (update l (.proc p)
      (((l (.proc p)).drop lk).setBed (some (w, lk)))) p w' lk' → w' = w ∧ lk' = lk := by
    rintro w' lk' ⟨inside, -⟩
    rw [update_self] at inside
    obtain ⟨rfl, rfl⟩ := Prod.mk.inj (Option.some.inj inside)
    exact ⟨rfl, rfl⟩
  constructor
  · intro q now
    rw [slot] at now ⊢
    have other : q ≠ p := by
      rintro rfl
      rw [state] at now
      cases now
    rw [update_of_ne fun same => other (Thread.proc.inj same)]
    exact sleeps.chan q now
  · intro q w' lk' inside
    by_cases acting : q = p
    · rw [acting, update_self] at inside ⊢
      obtain ⟨rfl, rfl⟩ := Prod.mk.inj (Option.some.inj inside)
      refine ⟨guards, free, notMem_erase _ _, ?_⟩
      exact mem_erase.mpr ⟨(free p).symm, mine⟩
    rw [update_of_ne fun same => acting (Thread.proc.inj same)] at inside ⊢
    exact sleeps.bed q w' lk' inside
  · intro c' lk' w' q holds told inside
    rw [cur, update_cur cpus here] at holds told
    by_cases acting : q = p
    · rw [acting] at inside
      obtain ⟨rfl, rfl⟩ := self w' lk' inside
      by_cases same : c' = c
      · rw [if_pos same] at holds
        exact notMem_erase _ _ holds
      rw [if_neg same] at holds
      rw [← here] at held
      exact same (lock_excl cpus holds held)
    have prev := (others q w' lk' acting).mp inside
    by_cases same : c' = c
    · rw [if_pos same] at holds told
      refine sleeps.awake c lk' w' q ?_ ?_ prev
      · rw [here]
        exact mem_of_mem_erase holds
      rw [here]
      exact told.2
    rw [if_neg same] at holds told
    exact sleeps.awake c' lk' w' q holds told prev
  intro q w' lk' guards' inside now
  have prev := (ready_same slot parent ext w').mp now
  have acting : q ≠ p := by
    rintro rfl
    obtain ⟨rfl, rfl⟩ := self w' lk' inside
    exact waits prev
  have abed := (others q w' lk' acting).mp inside
  obtain ⟨d, holds, owes⟩ := sleeps.clean q w' lk' guards' abed prev
  refine ⟨d, ?_⟩
  rw [cur, update_cur cpus here]
  by_cases same : d = c
  · rw [if_pos same]
    rw [same, here] at holds owes
    have other : lk' ≠ lk := by
      rintro rfl
      refine sleeps.awake c lk' w' q (by rw [here]; exact holds) ?_ abed
      rw [here]
      exact settled w' guards' owes q fun same => acting (Option.some.inj same)
    refine ⟨mem_erase.mpr ⟨other, holds⟩, ?_, owes⟩
    rw [guards']
    exact fun same => other (Option.some.inj same)
  rw [if_neg same]
  exact ⟨holds, owes⟩

end

theorem sleeps_load (sleeps : Sleeps E s l) {u : Thread n m} {r : Fin n} (here : s.cur c = t)
    (cur : s'.cur = update s.cur c u) (slot : s'.slot = s.slot) (parent : s'.parent = s.parent)
    (ext : s'.ext = s.ext) (left : (l t).locks = {.proc r}) (taken : (l u).locks = {.proc r})
    (apart : ∀ c', s.cur c' = t → c' = c) (other : u ≠ t) (locks : h.locks = (l t).locks)
    (bed : h.bed = (l t).bed) (stay : h.mode ≠ .run) : Sleeps E s' (update l t h) := by
  have abed : ∀ q w lk, Abed s' (update l t h) q w lk → Abed s l q w lk := by
    rintro q w lk ⟨inside, asleep⟩
    rw [slot] at asleep
    by_cases acting : t = .proc q
    · rw [← acting, update_self] at inside asleep
      rw [bed, acting] at inside
      exact ⟨inside, .inl (asleep.resolve_right stay)⟩
    rw [update_of_ne (Ne.symm acting)] at inside asleep
    exact ⟨inside, asleep⟩
  -- who has another lock was on another CPU and stays there
  have away : ∀ c' lk, (∀ q, lk ≠ .proc q) → (lk ∈ (update l t h (s'.cur c')).locks →
      c' ≠ c ∧ update l t h (s'.cur c') = l (s.cur c')) := by
    intro c' lk free holds
    have moved : c' ≠ c := by
      rintro rfl
      rw [cur, update_self, update_of_ne other, taken] at holds
      exact free r (mem_singleton.mp holds)
    refine ⟨moved, ?_⟩
    rw [cur, update_of_ne moved, update_of_ne fun same => moved (apart c' same)]
  constructor
  · intro q now
    rw [slot] at now ⊢
    obtain ⟨w, lk, inside, named⟩ := sleeps.chan q now
    exact ⟨w, lk, (bed_update bed q).trans inside, named⟩
  · intro q w lk inside
    by_cases acting : t = .proc q
    · rw [← acting, update_self] at inside ⊢
      rw [locks, acting]
      rw [bed, acting] at inside
      exact sleeps.bed q w lk inside
    rw [update_of_ne (Ne.symm acting)] at inside ⊢
    exact sleeps.bed q w lk inside
  · intro c' lk w q holds told inside
    have prev := abed q w lk inside
    obtain ⟨-, same⟩ := away c' lk (sleeps.bed q w lk prev.1).2.1 holds
    rw [same] at holds told
    exact sleeps.awake c' lk w q holds told prev
  intro q w lk guards inside now
  obtain ⟨d, holds, owes⟩ := sleeps.clean q w lk guards (abed q w lk inside)
    ((ready_same slot parent ext w).mp now)
  have moved : d ≠ c := by
    rintro rfl
    rw [here, left] at holds
    exact guardOf_ne guards r (mem_singleton.mp holds)
  refine ⟨d, ?_⟩
  rw [cur, update_of_ne moved, update_of_ne fun same => moved (apart d same)]
  exact ⟨holds, owes⟩

variable [DecidableEq W]

theorem wakeIf_rest (s : Kernel n m X W) (q : Fin n) (w : Option (Chan n W)) :
    (s.wakeIf q w).cur = s.cur ∧ (s.wakeIf q w).parent = s.parent ∧ (s.wakeIf q w).ext = s.ext := by
  unfold Kernel.wakeIf
  split
  · exact ⟨rfl, rfl, rfl⟩
  · exact ⟨rfl, rfl, rfl⟩

theorem wakeIf_asleep (s : Kernel n m X W) (q : Fin n) (w : Option (Chan n W)) (r : Fin n)
    (now : ((s.wakeIf q w).slot r).state = .sleeping) : (s.wakeIf q w).slot r = s.slot r ∧
      ¬ (r = q ∧ (s.slot q).chan = w) := by
  unfold Kernel.wakeIf at now ⊢
  split
  · rename_i asleep
    rw [if_pos asleep] at now
    have other : r ≠ q := by
      rintro rfl
      simp [Kernel.setState, Kernel.setSlot, Slot.setState] at now
    simp [Kernel.setState, Kernel.setSlot, other]
  rename_i awake
  rw [if_neg awake] at now
  refine ⟨rfl, ?_⟩
  rintro ⟨rfl, chan⟩
  exact awake ⟨now, chan⟩

theorem sleeps_wakeIf (cpus : Cpus s l) (sleeps : Sleeps E s l) (here : s.cur c = t)
    (w : Option (Chan n W)) (mine : .proc q ∈ (l t).locks) (other : t ≠ .proc q) :
    Sleeps E (s.wakeIf q w) (update l t ((l t).setAwake fun lk w' q' =>
      (l t).awake lk w' q' ∨ lk ∈ (l t).locks ∧ some w' = w ∧ q' = q)) := by
  obtain ⟨cur, parent, ext⟩ := wakeIf_rest s q w
  refine sleeps_keep cpus sleeps here cur ?_ ?_ (fun _ => id) (fun _ => id) (fun _ => Finset.Subset.refl _)
    ?_ ?_ ?_ fun _ _ _ _ _ holds owes => ⟨holds, owes⟩
  · intro r now
    rw [(wakeIf_asleep s q w r now).1] at now
    exact .inl now
  · intro r now
    have same := (wakeIf_asleep s q w r now).1
    rw [same] at now ⊢
    obtain ⟨w', lk, inside, named⟩ := sleeps.chan r now
    refine ⟨w', lk, (bed_update ?_ r).trans inside, named⟩
    rfl
  · rintro r rfl inside
    obtain ⟨⟨w', lk⟩, now⟩ := Option.ne_none_iff_exists'.mp inside
    exact (sleeps.bed r w' lk now).2.2.2
  · intro lk w' q' holds told
    rcases told with prev | ⟨-, named, rfl⟩
    · exact .inl ⟨holds, prev⟩
    right
    rintro ⟨inside, asleep⟩
    rw [update_of_ne (Ne.symm other)] at inside asleep
    rcases asleep with sleeping | run
    · obtain ⟨same, missed⟩ := wakeIf_asleep s q' w q' sleeping
      rw [same] at sleeping
      obtain ⟨w'', lk', inside', chan⟩ := sleeps.chan q' sleeping
      rw [inside] at inside'
      obtain ⟨rfl, -⟩ := Prod.mk.inj (Option.some.inj inside')
      exact missed ⟨rfl, chan.trans named⟩
    -- it has its own lock until its swtch
    have held := (sleeps.bed q' w' lk inside).2.2.2
    obtain ⟨d, there⟩ : ∃ d, s.cur d = .proc q' := by
      by_contra none
      have away := (cpus.off q' fun d there => none ⟨d, there⟩).1
      rw [run] at away
      cases away
    rw [← here] at mine
    rw [← there] at held
    rw [lock_excl cpus mine held] at here
    exact other (here.symm.trans there)
  intro r w' lk _ _ now
  left
  cases w' with
  | proc parent' =>
    obtain ⟨q', of, dead⟩ := now
    rw [parent] at of
    exact ⟨q', of, (wakeIf_states s q w q').2.2 dead⟩
  | ext v =>
    rw [Ready, ext] at now
    exact now
  | other k => exact now

variable {o : Op n X Y W} {a : Ans o}

theorem apart_same (bed : h.bed = k.bed) (mode : h.mode = .run → k.mode = .run)
    (locks : h.locks = k.locks) (awake : h.awake = k.awake) (dirty : h.dirty = k.dirty) : Apart k h := by
  refine ⟨bed, mode, ?_, ?_, awake, ?_⟩
  · rw [locks]
  · intro _
    rw [locks]
  intro w prev
  rw [dirty]
  exact prev

theorem sleeps_sched (cpus : Cpus s l) (sleeps : Sleeps E s l) {d : Fin m} (tidy : Tidy init none (l (.sched d)))
    (here : s.cur c = .sched d) (allowed : allowsSched (l (.sched d)) o) (done : nextSched c o s = some (a, s')) :
    Sleeps E s' (update l (.sched d) (book E init none (l (.sched d)) o a)) := by
  obtain rfl := cpus.place c d here
  have ok := cpus.idle d here
  unfold SchedOk at ok
  cases o with
  | acquire lk =>
    obtain ⟨-, rfl⟩ := acquire_done done
    exact sleeps_still cpus sleeps tidy here rfl rfl rfl rfl
      ⟨rfl, id, subset_insert _ _, fun inside => absurd (tidy.sched rfl).2.2 inside, rfl, fun _ => id⟩
  | release lk =>
    obtain rfl := release_done done
    obtain ⟨-, -, settled⟩ := allowed
    obtain ⟨mode, after, same | ⟨-, never, -⟩⟩ := book_release E init none (l (.sched d)) lk
    · rw [after]
      exact sleeps_release cpus sleeps here rfl rfl rfl rfl settled rfl rfl rfl rfl nofun (.inl same)
    · cases never
  | pick q =>
    obtain ⟨-, rfl, rfl⟩ | ⟨rfl, rfl⟩ := test_done done
    · exact sleeps_slot cpus sleeps tidy here rfl rfl rfl (fun _ _ => rfl) nofun nofun
        (apart_same rfl nofun rfl rfl rfl)
    · exact sleeps_still cpus sleeps tidy here rfl rfl rfl rfl (apart_same rfl id rfl rfl rfl)
  | wakeIf q w =>
    cases done
    exact sleeps_wakeIf cpus sleeps here w allowed.1 nofun
  | setProc q =>
    cases done
    cases q with
    | none
    | some q => exact sleeps_still cpus sleeps tidy here rfl rfl rfl rfl (apart_same rfl nofun rfl rfl rfl)
  | save | woke w =>
    cases done
    exact sleeps_still cpus sleeps tidy here rfl rfl rfl rfl (apart_same rfl id rfl rfl rfl)
  | loadProc q =>
    cases done
    rw [show (l (.sched d)).mode = .named q from allowed] at ok
    obtain ⟨-, locks, -, off⟩ := ok
    refine sleeps_load sleeps here rfl rfl rfl rfl locks (cpus.off q off).2 ?_ nofun rfl rfl nofun
    exact fun c' there => (cpus.place c' d there).symm
  | _ => cases allowed

theorem not_ready (known : Known s (l (.proc p)) p) (waits : Waits E p (l (.proc p)) w) : ¬ Ready E s w := by
  cases w with
  | proc r =>
    obtain ⟨rfl, quiet⟩ := waits
    rintro ⟨q, of, dead⟩
    exact (known.quiet q (quiet q)).2 ⟨of, dead⟩
  | ext v =>
    obtain ⟨x, view, false'⟩ := waits
    intro now
    rw [Ready, (known.view x view).2] at now
    exact false' now
  | other k => exact id

theorem sleeps_proc (cpus : Cpus s l) (family : Family init s l) (sleeps : Sleeps E s l)
    (tidy : Tidy init (some p) (l (.proc p))) (here : s.cur c = .proc p) (allowed : allowsProc E init p (l (.proc p)) o)
    (done : nextProc init c p o s = some (a, s')) :
    Sleeps E s' (update l (.proc p) (book E init (some p) (l (.proc p)) o a)) := by
  have known := family.known p
  cases o with
  | acquire lk =>
    obtain ⟨-, rfl⟩ := acquire_done done
    exact sleeps_still cpus sleeps tidy here rfl rfl rfl rfl
      ⟨rfl, id, subset_insert _ _, fun inside => absurd allowed.2.2 inside, rfl, fun _ => id⟩
  | release lk =>
    obtain rfl := release_done done
    obtain ⟨mine, settled, -, own⟩ := allowed
    obtain ⟨mode, after, how⟩ := book_release E init (some p) (l (.proc p)) lk
    rw [after]
    refine sleeps_release cpus sleeps here rfl rfl rfl rfl settled rfl rfl rfl rfl ?_ ?_
    · intro p' acting same
      rw [← Thread.proc.inj acting] at same
      exact (own same).2
    rcases how with same | ⟨-, back, -⟩
    · exact .inl same
    · exact .inr (own (Option.some.inj back).symm).2
  | sleepRelease w lk =>
    obtain rfl := release_done done
    obtain ⟨run, empty, mine, held, free, settled, guards, -, waits⟩ := allowed
    exact sleeps_enter cpus sleeps here rfl rfl rfl rfl (state_run cpus here run) mine held free empty
      settled guards (not_ready known waits)
  | schedCheck =>
    obtain ⟨-, rfl⟩ := check_done done
    exact sleeps_still cpus sleeps tidy here rfl rfl rfl rfl (apart_same rfl id rfl rfl rfl)
  | checkInit =>
    obtain ⟨-, rfl⟩ := refuse_done done
    exact sleeps_still cpus sleeps tidy here rfl rfl rfl rfl (apart_same rfl id rfl rfl rfl)
  | loadSched =>
    obtain ⟨⟨st, stage⟩, locks⟩ := allowed
    cases done
    refine sleeps_load sleeps here rfl rfl rfl rfl locks (cpus.busy c p here).2.2 ?_ nofun rfl rfl nofun
    exact fun c' there => cpus.one c' c p there here
  | goSleep w =>
    obtain ⟨run, mine, lk, inside⟩ := allowed
    cases done
    have slot : ∀ q, q ≠ p → (s.setSlot p (((s.slot p).setChan (some w)).setState .sleeping)).slot q =
        s.slot q := fun q other => update_of_ne other _ _
    refine sleeps_keep cpus sleeps here rfl ?_ ?_ (fun _ => id) nofun (fun _ => Finset.Subset.refl _) ?_ ?_ ?_
      fun _ _ _ _ _ holds owes => ⟨holds, owes⟩
    · intro q now
      by_cases same : q = p
      · rw [same]
        exact .inr ⟨rfl, run⟩
      rw [slot q same] at now
      exact .inl now
    · intro q now
      by_cases same : q = p
      · rw [same, update_self]
        exact ⟨w, lk, inside, (congrArg Slot.chan (update_self p _ s.slot)).trans rfl⟩
      rw [update_of_ne fun eq => same (Thread.proc.inj eq), slot q same]
      rw [slot q same] at now
      exact sleeps.chan q now
    · intro p' acting _
      rw [← Thread.proc.inj acting]
      exact mine
    · exact fun lk w q holds told => .inl ⟨holds, told⟩
    refine fun _ w' _ _ _ now => .inl (ready_mono ?_ ?_ w' now)
    · rfl
    intro q dead
    by_cases same : q = p
    · rw [same] at dead
      cases (congrArg Slot.state (update_self p _ s.slot)).symm.trans dead
    rw [slot q same] at dead
    exact ⟨dead, rfl⟩
  | clearChan =>
    have ok := cpus.on c p here
    unfold RunOk at ok
    rw [show (l (.proc p)).mode = .away from allowed] at ok
    cases done
    have slot : ∀ q, q ≠ p → (s.setSlot p ((s.slot p).setChan none)).slot q = s.slot q :=
      fun q other => update_of_ne other _ _
    have running : ((s.setSlot p ((s.slot p).setChan none)).slot p).state = .running :=
      (congrArg Slot.state (update_self p _ s.slot)).trans ok.1
    have other : ∀ q, ((s.setSlot p ((s.slot p).setChan none)).slot q).state ≠ .running → q ≠ p := by
      rintro q state rfl
      exact state running
    refine sleeps_keep cpus sleeps here rfl ?_ ?_ nofun (fun none => absurd rfl none)
      (fun _ => Finset.Subset.refl _) (fun _ _ none => absurd rfl none) ?_ ?_
      fun _ _ _ _ _ holds owes => ⟨holds, owes⟩
    · intro q now
      rw [slot q (other q (by rw [now]; nofun))] at now
      exact .inl now
    · intro q now
      have apart := other q (by rw [now]; nofun)
      rw [update_of_ne fun eq => apart (Thread.proc.inj eq), slot q apart]
      rw [slot q apart] at now
      exact sleeps.chan q now
    · exact fun lk w q holds told => .inl ⟨holds, told⟩
    refine fun _ w' _ _ _ now => .inl (ready_mono ?_ ?_ w' now)
    · rfl
    intro q dead
    rw [slot q (other q (by rw [dead]; nofun))] at dead
    exact ⟨dead, rfl⟩
  | giveUp =>
    cases done
    exact sleeps_slot cpus sleeps tidy here rfl rfl rfl (fun _ _ => rfl) nofun nofun
        (apart_same rfl nofun rfl rfl rfl)
  | wakeIf q w =>
    cases done
    exact sleeps_wakeIf cpus sleeps here w allowed.1 fun same => allowed.2 (Thread.proc.inj same).symm
  | killIf q pid =>
    obtain ⟨-, -, rfl⟩ | ⟨-, rfl⟩ := test_done done
    · refine sleeps_slot cpus sleeps tidy here rfl rfl rfl (fun _ _ => rfl) ?_ ?_
        (apart_same rfl id rfl rfl rfl)
      · unfold Slot.kill
        split
        · exact nofun
        · exact fun now => ⟨now, rfl⟩
      unfold Slot.kill
      split
      · exact nofun
      · exact id
    · exact sleeps_still cpus sleeps tidy here rfl rfl rfl rfl (apart_same rfl id rfl rfl rfl)
  | setUsed q pid | setRunnable q =>
    cases done
    exact sleeps_slot cpus sleeps tidy here rfl rfl rfl (fun _ _ => rfl) nofun nofun
      (apart_same rfl id rfl rfl rfl)
  | freeproc q | reap q addr =>
    cases done
    refine sleeps_slot cpus sleeps tidy here rfl rfl rfl ?_ nofun nofun (apart_same rfl id rfl rfl rfl)
    intro r either
    rcases either with other | dead
    · exact update_of_ne other _ _
    · cases dead
  | setZombie status =>
    obtain ⟨-, -, run, empty, mine, wait, -, -, -, -, -, par, told, awake⟩ := allowed
    cases done
    have slot : ∀ q, q ≠ p → (s.setSlot p ((s.slot p).exit status)).slot q = s.slot q :=
      fun q other => update_of_ne other _ _
    refine sleeps_same cpus sleeps tidy here rfl ?_ ?_ (apart_same rfl nofun rfl rfl rfl)
    · intro q now
      have other : q ≠ p := by
        rintro rfl
        simp [Kernel.setHist, Kernel.setSlot, Slot.exit] at now
      have same := slot q other
      exact ⟨by rw [← same]; exact now, by rw [← same]; rfl⟩
    intro q w lk guards abed now
    left
    cases w with
    | proc r =>
      obtain ⟨q', of, dead⟩ := now
      by_cases same : q' = p
      · -- the own parent has been woken under wait_lock
        rw [same] at of
        have parent : par = some r := (known.par par told).2.symm.trans of
        have apart : q ≠ p := by
          rintro rfl
          cases empty.symm.trans abed.1
        cases guards
        refine absurd abed (sleeps.awake c .wait (.proc r) q ?_ ?_)
        · rw [here]
          exact wait
        rw [here]
        exact awake r parent q apart
      refine ⟨q', of, ?_⟩
      rw [← slot q' same]
      exact dead
    | ext v => exact now
    | other k => exact now
  | adopt q =>
    obtain ⟨-, -, child, -⟩ := allowed
    have used := (known.child q child).2.1
    cases done
    refine sleeps_same cpus sleeps tidy here rfl (fun _ now => ⟨now, rfl⟩)
      (fun _ w _ _ _ now => .inl (ready_mono ?_ ?_ w now)) (apart_same rfl id rfl rfl rfl)
    · rfl
    intro r dead
    refine ⟨dead, update_of_ne ?_ _ _⟩
    rintro rfl
    cases used.symm.trans dead
  | passOn q =>
    obtain ⟨-, -, wait, -, -⟩ := allowed
    cases done
    refine sleeps_same cpus sleeps tidy here rfl (fun _ now => ⟨now, rfl⟩) ?_
      ⟨rfl, id, Finset.Subset.refl _, fun _ => Finset.Subset.refl _, rfl, fun _ => .inl⟩
    intro r w lk guards _ now
    cases w with
    | proc r' =>
      obtain ⟨q', of, dead⟩ := now
      by_cases same : q' = q
      · right
        rw [same] at of
        have given : some init = some r' := by
          rw [← of]
          simp [Kernel.setParent]
        cases guards
        rw [← Option.some.inj given]
        exact ⟨wait, .inr rfl⟩
      · exact .inl ⟨q', (update_of_ne same _ _).symm.trans of, dead⟩
    | ext v => exact .inl now
    | other k => exact .inl now
  | put x y =>
    obtain ⟨holds, -, x₀, view, -⟩ := allowed
    have same := (known.view x₀ view).2
    cases done
    refine sleeps_ext cpus sleeps tidy here rfl rfl rfl holds ?_ rfl id rfl rfl fun _ => .inl
    intro v prev now
    rw [same] at prev
    exact .inr ⟨v, x₀, rfl, view, now, prev⟩
  | stamp f y =>
    obtain ⟨holds, -, x₀, view, -⟩ := allowed
    have same := (known.view x₀ view).2
    cases done
    refine sleeps_ext cpus sleeps tidy here rfl rfl rfl holds ?_ rfl id rfl rfl fun _ => .inl
    intro v prev now
    rw [same] at prev
    exact .inr ⟨v, x₀, (s.slot p).pid, rfl, view, now, prev⟩
  | isUnused q =>
    obtain ⟨-, rfl⟩ := Prod.mk.inj (Option.some.inj done)
    cases a with
    | false | true => exact sleeps_still cpus sleeps tidy here rfl rfl rfl rfl (apart_same rfl id rfl rfl rfl)
  | zombie q =>
    obtain ⟨-, rfl⟩ := Prod.mk.inj (Option.some.inj done)
    cases a with
    | none
    | some pid => exact sleeps_still cpus sleeps tidy here rfl rfl rfl rfl (apart_same rfl id rfl rfl rfl)
  | parent q | get | takePid | waitReturn r | save | killed | pid | woke w | clearThread q
  | copyout q addr | youAThread =>
    cases done
    exact sleeps_still cpus sleeps tidy here rfl rfl rfl rfl (apart_same rfl id rfl rfl rfl)
  | never => cases done
  | pick q | setProc q | loadProc q => cases allowed

theorem sleeps_step (cpus : Cpus s l) (family : Family init s l) (sleeps : Sleeps E s l)
    (tidy : Tidy init t.me (l t)) (here : s.cur c = t) (ok : allows E init t o (l t))
    (done : next init c t o s = some (a, s')) : Sleeps E s' (update l t (book E init t.me (l t) o a)) := by
  cases t with
  | sched d => exact sleeps_sched cpus sleeps tidy here ok done
  | proc p => exact sleeps_proc cpus family sleeps tidy here ok done

theorem tidy_drop {me : Option (Fin n)} (tidy : Tidy init me k)
    (exits : lk = .wait → k.know.leaving = false) : Tidy init me (k.drop lk) := by
  refine ⟨?_, ?_, ?_, ?_⟩
  · rintro lk' w q ⟨other, told⟩
    exact mem_erase.mpr ⟨other, tidy.awake lk' w q told⟩
  · rintro w ⟨other, owes⟩
    obtain ⟨lk', holds, guards⟩ := tidy.dirty w owes
    refine ⟨lk', mem_erase.mpr ⟨?_, holds⟩, guards⟩
    rintro rfl
    exact other guards
  · intro leaving
    have prev : k.know.leaving = true := by
      cases lk <;> exact leaving
    obtain ⟨holds, root⟩ := tidy.leaving prev
    refine ⟨mem_erase.mpr ⟨?_, holds⟩, root⟩
    rintro rfl
    rw [exits rfl] at prev
    cases prev
  intro sched
  obtain ⟨know, view, bed⟩ := tidy.sched sched
  refine ⟨?_, ?_, bed⟩
  · simp only [Ledger.drop, know]
    cases lk <;> rfl
  · simp only [Ledger.drop, view, ite_self]

theorem tidy_same {me : Option (Fin n)} (tidy : Tidy init me k)
    (awake : h.awake = k.awake) (dirty : h.dirty = k.dirty) (locks : k.locks ⊆ h.locks)
    (leaving : h.know.leaving = true → k.know.leaving = true)
    (sched : me = none → h.know = k.know ∧ h.view = k.view ∧ h.bed = k.bed) : Tidy init me h := by
  refine ⟨?_, ?_, ?_, ?_⟩
  · intro lk w q told
    rw [awake] at told
    exact locks (tidy.awake lk w q told)
  · intro w owes
    rw [dirty] at owes
    obtain ⟨lk, holds, guards⟩ := tidy.dirty w owes
    exact ⟨lk, locks holds, guards⟩
  · intro now
    obtain ⟨holds, root⟩ := tidy.leaving (leaving now)
    exact ⟨locks holds, root⟩
  intro none
  obtain ⟨know, view, bed⟩ := sched none
  rw [know, view, bed]
  exact tidy.sched none

theorem tidy_step (tidy : Tidy init t.me (l t)) (ok : allows E init t o (l t)) :
    Tidy init t.me (book E init t.me (l t) o a) := by
  cases t with
  | sched d =>
    cases o with
    | acquire lk =>
      exact tidy_same tidy rfl rfl (subset_insert _ _) id fun _ => ⟨rfl, rfl, rfl⟩
    | release lk =>
      obtain ⟨mode, after, -⟩ := book_release E init none (l (.sched d)) lk
      have know := (tidy.sched rfl).1
      have dropped : Tidy init none ((l (.sched d)).drop lk) := by
        refine tidy_drop tidy fun _ => ?_
        rw [know]
        rfl
      change Tidy init none (book E init none (l (.sched d)) (.release lk) ())
      rw [after]
      exact tidy_same dropped rfl rfl (Finset.Subset.refl _) id fun _ => ⟨rfl, rfl, rfl⟩
    | pick q =>
      cases a with
      | false => exact tidy
      | true => exact tidy_same tidy rfl rfl (Finset.Subset.refl _) id fun _ => ⟨rfl, rfl, rfl⟩
    | setProc q =>
      cases q with
      | none | some q => exact tidy_same tidy rfl rfl (Finset.Subset.refl _) id fun _ => ⟨rfl, rfl, rfl⟩
    | wakeIf q w =>
      refine ⟨?_, tidy.dirty, tidy.leaving, tidy.sched⟩
      intro lk w' q' told
      rcases told with prev | ⟨holds, -, -⟩
      · exact tidy.awake lk w' q' prev
      · exact holds
    | save | loadProc q | woke w =>
      exact tidy_same tidy rfl rfl (Finset.Subset.refl _) id fun _ => ⟨rfl, rfl, rfl⟩
    | _ => cases ok
  | proc p =>
    have same : ∀ h : Ledger n X Y W, h.awake = (l (.proc p)).awake → h.dirty = (l (.proc p)).dirty →
        (l (.proc p)).locks ⊆ h.locks → (h.know.leaving = true → (l (.proc p)).know.leaving = true) →
        Tidy init (some p) h :=
      fun h awake dirty locks leaving => tidy_same tidy awake dirty locks leaving nofun
    cases o with
    | acquire lk => exact same _ rfl rfl (subset_insert _ _) id
    | release lk =>
      obtain ⟨mode, after, -⟩ := book_release E init (some p) (l (.proc p)) lk
      have dropped := tidy_drop tidy ok.2.2.1
      change Tidy init (some p) (book E init (some p) (l (.proc p)) (.release lk) ())
      rw [after]
      exact tidy_same dropped rfl rfl (Finset.Subset.refl _) id nofun
    | sleepRelease w lk =>
      have dropped := tidy_drop tidy ok.2.2.2.2.2.2.2.1
      exact tidy_same dropped rfl rfl (Finset.Subset.refl _) id nofun
    | wakeIf q w =>
      refine ⟨?_, tidy.dirty, tidy.leaving, nofun⟩
      intro lk w' q' told
      rcases told with prev | ⟨holds, -, -⟩
      · exact tidy.awake lk w' q' prev
      · exact holds
    | passOn q =>
      refine ⟨tidy.awake, ?_, fun _ => ⟨ok.2.2.1, ?_⟩, nofun⟩
      · intro w owes
        rcases owes with prev | rfl
        · exact tidy.dirty w prev
        · exact ⟨.wait, ok.2.2.1, rfl⟩
      · exact fun same => ok.1 (Option.some.inj same)
    | stamp f y =>
      refine ⟨tidy.awake, ?_, tidy.leaving, nofun⟩
      intro w owes
      rcases owes with prev | ⟨v, -, -, rfl, -⟩
      · exact tidy.dirty w prev
      · exact ⟨.ext, ok.1, rfl⟩
    | put x y =>
      refine ⟨tidy.awake, ?_, tidy.leaving, nofun⟩
      intro w owes
      rcases owes with prev | ⟨v, -, rfl, -⟩
      · exact tidy.dirty w prev
      · exact ⟨.ext, ok.1, rfl⟩
    | setZombie status => exact same _ rfl rfl (Finset.Subset.refl _) nofun
    | isUnused q =>
      cases a with
      | false => exact tidy
      | true => exact same _ rfl rfl (Finset.Subset.refl _) id
    | zombie q =>
      cases a with
      | none | some pid => exact same _ rfl rfl (Finset.Subset.refl _) id
    | parent q =>
      refine same _ rfl rfl (Finset.Subset.refl _) ?_
      simp only [book]
      split
      · split
        · exact id
        · exact id
      split
      · exact id
      · exact id
    | schedCheck | save | loadSched | goSleep w | clearChan | giveUp | killed | pid | woke w | killIf q pid
    | takePid | setUsed q pid | freeproc q | clearThread q | adopt q | setRunnable q | checkInit
    | copyout q addr | reap q addr | waitReturn r | youAThread | get | never =>
      exact same _ rfl rfl (Finset.Subset.refl _) id
    | pick q | setProc q | loadProc q => cases ok

end

end Xv6Kern
