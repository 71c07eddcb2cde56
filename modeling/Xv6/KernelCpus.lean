import Xv6.KernelCalls

/- Which CPU is in which kernel thread. A process that is off every CPU is away in swtch, and its
   lock is with the scheduler that it went to, or free, or with somebody who looks at its slot. -/
namespace Xv6Kern
open Threads Prog Xv6Proc
open Function (update update_self update_of_ne)

section
variable {n m : Nat} {X Y W : Type}

theorem sole_lock {locks : Finset (Lk n)} {lk : Lk n} (sole : locks = {lk}) : lk ∈ locks := by
  rw [sole]
  exact Finset.mem_singleton_self lk

def RunOk (state : ProcState) (l : Ledger n X Y W) (p : Fin n) : Prop :=
  match l.mode with
  | .run => state = .running
  | .ready st => st ≠ .running ∧ state = st ∧ .proc p ∈ l.locks
  | .away => state = .running ∧ .proc p ∈ l.locks
  | _ => False

def Kernel.Off (s : Kernel n m X W) (p : Fin n) : Prop := ∀ c, s.cur c ≠ .proc p

/-- A scheduler that has its CPU. After its swtch it has the lock of the process that came back. -/
def SchedOk (s : Kernel n m X W) (c : Fin m) (l : Ledger n X Y W) : Prop :=
  match l.mode with
  | .idle => s.cproc c = none
  | .picked p => s.cproc c = none ∧ l.locks = {.proc p} ∧ (s.slot p).state = .running ∧ s.Off p
  | .named p => s.cproc c = some p ∧ l.locks = {.proc p} ∧ (s.slot p).state = .running ∧ s.Off p
  | .gone p => s.cproc c = some p ∧ l.locks = {.proc p} ∧ (s.slot p).state ≠ .running ∧ s.Off p
  | _ => False

def Claims (l : Ledger n X Y W) (p : Fin n) : Prop := l.mode = .picked p ∨ l.mode = .named p

structure Cpus (s : Kernel n m X W) (l : Thread n m → Ledger n X Y W) : Prop where
  own : ∀ c lk, s.owner lk = some c ↔ lk ∈ (l (s.cur c)).locks
  depth : ∀ c, s.noff c = (l (s.cur c)).locks.card
  place : ∀ c c', s.cur c = .sched c' → c' = c
  one : ∀ c c' p, s.cur c = .proc p → s.cur c' = .proc p → c = c'
  busy : ∀ c p, s.cur c = .proc p →
    s.cproc c = some p ∧ (l (.sched c)).mode = .gone p ∧ (l (.sched c)).locks = {.proc p}
  off : ∀ p, s.Off p → (l (.proc p)).mode = .away ∧ (l (.proc p)).locks = {.proc p}
  on : ∀ c p, s.cur c = .proc p → RunOk (s.slot p).state (l (.proc p)) p
  idle : ∀ c, s.cur c = .sched c → SchedOk s c (l (.sched c))
  running : ∀ p, (s.slot p).state = .running →
    (∃ c, s.cur c = .proc p) ∨ ∃ c, s.cur c = .sched c ∧ Claims (l (.sched c)) p

variable {s s' : Kernel n m X W} {l : Thread n m → Ledger n X Y W} {c c' : Fin m} {t : Thread n m} {p q : Fin n}
  {h : Ledger n X Y W} {lk : Lk n}

theorem cur_inj (cpus : Cpus s l) (same : s.cur c = s.cur c') : c = c' := by
  cases thread : s.cur c' with
  | sched d =>
    rw [thread] at same
    rw [← cpus.place c d same, ← cpus.place c' d thread]
  | proc p =>
    rw [thread] at same
    exact cpus.one c c' p same thread

theorem lock_excl (cpus : Cpus s l) (mine : lk ∈ (l (s.cur c)).locks) (other : lk ∈ (l (s.cur c')).locks) : c = c' := by
  have first := (cpus.own c lk).mpr mine
  rw [(cpus.own c' lk).mpr other] at first
  exact (Option.some.inj first).symm

section
variable (cpus : Cpus s l) (here : s.cur c = t)
include cpus here

theorem off_of_lock (mine : .proc q ∈ (l t).locks)
    (other : t ≠ .proc q) (state : (s.slot q).state ≠ .running) : s.Off q := by
  intro c' there
  have ok := cpus.on c' q there
  have apart : ∀ lk, lk ∈ (l t).locks → lk ∈ (l (.proc q)).locks → False := by
    intro lk first snd
    rw [← here] at first
    rw [← there] at snd
    have same := lock_excl cpus first snd
    rw [same, there] at here
    exact other here.symm
  unfold RunOk at ok
  cases mode : (l (.proc q)).mode with
  | run =>
    rw [mode] at ok
    exact state ok
  | ready st =>
    rw [mode] at ok
    exact apart _ mine ok.2.2
  | away =>
    rw [mode] at ok
    exact state ok.1
  | idle | picked _ | named _ | gone _ =>
    rw [mode] at ok
    exact ok

theorem update_cur (c' : Fin m) :
    update l t h (s.cur c') = if c' = c then h else l (s.cur c') := by
  by_cases same : c' = c
  · rw [if_pos same, same, here, update_self]
  rw [if_neg same, update_of_ne]
  intro eq
  exact same (cur_inj cpus (eq.trans here.symm))

theorem cpus_stay (s' : Kernel n m X W) (cur : s'.cur = s.cur)
    (own : ∀ lk, s'.owner lk = some c ↔ lk ∈ h.locks)
    (own_other : ∀ lk c', c' ≠ c → (s'.owner lk = some c' ↔ s.owner lk = some c'))
    (depth : s'.noff c = h.locks.card) (depth_other : ∀ c', c' ≠ c → s'.noff c' = s.noff c')
    (cproc_other : ∀ c', c' ≠ c → s'.cproc c' = s.cproc c')
    (states : ∀ q, t ≠ .proc q → (s'.slot q).state = (s.slot q).state ∨ (s.slot q).state ≠ .running ∧
      .proc q ∈ (l t).locks ∧ ((s'.slot q).state = .running → t = .sched c ∧ Claims h q))
    (proc : ∀ p, t = .proc p → s'.cproc c = s.cproc c ∧ RunOk (s'.slot p).state h p)
    (sched : t = .sched c → SchedOk s' c h ∧ ∀ q, Claims (l t) q → Claims h q) : Cpus s' (update l t h) := by
  have off : ∀ q, s'.Off q ↔ s.Off q := by
    intro q
    unfold Kernel.Off
    rw [cur]
  have quiet : ∀ q c', c' ≠ c → .proc q ∈ (l (s.cur c')).locks → s.Off q → (s'.slot q).state = (s.slot q).state := by
    intro q c' other holds away
    rcases states q (fun eq => away c (here.trans eq)) with same | ⟨-, mine, -⟩
    · exact same
    rw [← here] at mine
    exact absurd (lock_excl cpus holds mine) other
  constructor
  · intro c' lk
    rw [cur, update_cur cpus here]
    by_cases same : c' = c
    · rw [if_pos same, same]
      exact own lk
    rw [if_neg same, own_other lk c' same]
    exact cpus.own c' lk
  · intro c'
    rw [cur, update_cur cpus here]
    by_cases same : c' = c
    · rw [if_pos same, same]
      exact depth
    rw [if_neg same, depth_other c' same]
    exact cpus.depth c'
  · rw [cur]
    exact cpus.place
  · rw [cur]
    exact cpus.one
  · intro c' p there
    rw [cur] at there
    obtain ⟨named, mode, locks⟩ := cpus.busy c' p there
    have apart : (.sched c' : Thread n m) ≠ t := by
      intro eq
      rw [← eq] at here
      rw [← cpus.place c c' here, there] at here
      cases here
    rw [update_of_ne apart]
    refine ⟨?_, mode, locks⟩
    by_cases same : c' = c
    · rw [same] at there ⊢
      rw [(proc p (here.symm.trans there)).1, ← same]
      exact named
    rw [cproc_other c' same]
    exact named
  · intro p away
    have apart : (.proc p : Thread n m) ≠ t := by
      intro eq
      exact (off p).mp away c (here.trans eq.symm)
    rw [update_of_ne apart]
    exact cpus.off p ((off p).mp away)
  · intro c' p there
    rw [cur] at there
    by_cases mine : t = .proc p
    · rw [mine, update_self]
      exact (proc p mine).2
    rw [update_of_ne fun eq => mine eq.symm]
    rcases states p mine with same | ⟨prev, holds, -⟩
    · rw [same]
      exact cpus.on c' p there
    · exact absurd there (off_of_lock cpus here holds mine prev c')
  · intro c' there
    rw [cur] at there
    by_cases same : c' = c
    · rw [same] at there ⊢
      rw [← here.symm.trans there, update_self]
      exact (sched (here.symm.trans there)).1
    have apart : (.sched c' : Thread n m) ≠ t := by
      rw [← there]
      intro eq
      exact same (cur_inj cpus (eq.trans here.symm))
    rw [update_of_ne apart]
    have ok := cpus.idle c' there
    have holds : ∀ p, (l (.sched c')).locks = {.proc p} → .proc p ∈ (l (s.cur c')).locks := by
      intro p locks
      rw [there, locks]
      exact Finset.mem_singleton_self _
    unfold SchedOk at ok ⊢
    rw [cproc_other c' same]
    cases mode : (l (.sched c')).mode with
    | idle | run | ready _ | away =>
      rw [mode] at ok
      exact ok
    | picked p | named p | gone p =>
      rw [mode] at ok
      obtain ⟨first, locks, state, away⟩ := ok
      refine ⟨first, locks, ?_, (off p).mpr away⟩
      rw [quiet p c' same (holds p locks) away]
      exact state
  intro q now
  by_cases mine : t = .proc q
  · exact .inl ⟨c, by rw [cur, here]; exact mine⟩
  rcases states q mine with same | ⟨-, -, claims⟩
  · rw [same] at now
    rcases cpus.running q now with ⟨c', there⟩ | ⟨c', there, claims⟩
    · exact .inl ⟨c', by rw [cur]; exact there⟩
    refine .inr ⟨c', by rw [cur]; exact there, ?_⟩
    by_cases acting : .sched c' = t
    · rw [acting, update_self]
      have at_c : c' = c := cpus.place c c' (here.trans acting.symm)
      rw [at_c] at acting
      exact (sched acting.symm).2 q (by rw [← acting, ← at_c]; exact claims)
    rw [update_of_ne acting]
    exact claims
  obtain ⟨acting, claims⟩ := claims now
  refine .inr ⟨c, by rw [cur, here]; exact acting, ?_⟩
  rw [← acting, update_self]
  exact claims

theorem cpus_same (s' : Kernel n m X W)
    (cur : s'.cur = s.cur) (cproc : s'.cproc = s.cproc) (owner : s'.owner = s.owner)
    (noff : s'.noff = s.noff) (locks : h.locks = (l t).locks) (mode : h.mode = (l t).mode)
    (states : ∀ q, (s'.slot q).state = (s.slot q).state ∨ (s.slot q).state ≠ .running ∧
      (s'.slot q).state ≠ .running ∧ .proc q ∈ (l t).locks ∧ t ≠ .proc q) : Cpus s' (update l t h) := by
  refine cpus_stay cpus here s' cur ?_ ?_ ?_ ?_ ?_ ?_ ?_ ?_
  · intro lk
    rw [owner, locks, ← here]
    exact cpus.own c lk
  · intro lk c' _
    rw [owner]
  · rw [noff, locks, ← here]
    exact cpus.depth c
  · intro c' _
    rw [noff]
  · intro c' _
    rw [cproc]
  · intro q _
    rcases states q with same | ⟨prev, after, mine, -⟩
    · exact .inl same
    · exact .inr ⟨prev, mine, fun now => absurd now after⟩
  · intro p mine
    have ok := cpus.on c p (here.trans mine)
    refine ⟨by rw [cproc], ?_⟩
    unfold RunOk at ok ⊢
    rw [locks, mode, mine]
    rcases states p with same | ⟨-, -, -, other⟩
    · rw [same]
      exact ok
    · exact absurd mine other
  intro mine
  have ok := cpus.idle c (here.trans mine)
  have same : ∀ p, s.Off p → (l (.sched c)).locks = {.proc p} → (s.slot p).state = .running →
      (s'.slot p).state = .running := by
    intro p away _ running
    rcases states p with same | ⟨prev, -⟩
    · rw [same, running]
    · exact absurd running prev
  have still : ∀ p, (s.slot p).state ≠ .running → (s'.slot p).state ≠ .running := by
    intro p prev
    rcases states p with same | ⟨-, after, -⟩
    · rw [same]
      exact prev
    · exact after
  have off : ∀ q, s.Off q → s'.Off q := by
    intro q away
    unfold Kernel.Off
    rw [cur]
    exact away
  constructor
  · unfold SchedOk at ok ⊢
    rw [locks, mode, mine, cproc]
    cases mode' : (l (.sched c)).mode with
    | idle | run | ready _ | away =>
      rw [mode'] at ok
      exact ok
    | picked p | named p =>
      rw [mode'] at ok
      obtain ⟨first, held, state, away⟩ := ok
      exact ⟨first, held, same p away held state, off p away⟩
    | gone p =>
      rw [mode'] at ok
      obtain ⟨first, held, state, away⟩ := ok
      exact ⟨first, held, still p state, off p away⟩
  intro q claims
  unfold Claims at claims ⊢
  rw [mode]
  exact claims

end

theorem not_claims (mode : h.mode = .idle ∨ h.mode = .gone p) : ¬ Claims h q := by
  unfold Claims
  rcases mode with idle | gone
  · rw [idle]
    nofun
  rw [gone]
  nofun

theorem cpus_acquire (cpus : Cpus s l) (here : s.cur c = t) (free : s.owner lk = none)
    (new : lk ∉ (l t).locks) (locks : h.locks = insert lk (l t).locks) (mode : h.mode = (l t).mode)
    (outside : (l t).mode = .run ∨ (l t).mode = .idle) :
    Cpus ((s.setOwner lk (some c)).setNoff c (s.noff c + 1)) (update l t h) := by
  refine cpus_stay cpus here _ rfl ?_ ?_ ?_ ?_ (fun _ _ => rfl) (fun _ _ => .inl rfl) ?_ ?_
  · intro lk'
    rw [locks, Finset.mem_insert, ← here, ← cpus.own c lk']
    by_cases same : lk' = lk
    · simp [Kernel.setOwner, Kernel.setNoff, same]
    · simp [Kernel.setOwner, Kernel.setNoff, same]
  · intro lk' c' other
    by_cases same : lk' = lk
    · have apart : c ≠ c' := fun eq => other eq.symm
      simp [Kernel.setOwner, Kernel.setNoff, same, free, apart]
    · simp [Kernel.setOwner, Kernel.setNoff, same]
  · rw [locks, Finset.card_insert_of_notMem new, ← here, ← cpus.depth c]
    simp [Kernel.setNoff]
  · intro c' other
    simp [Kernel.setNoff, Kernel.setOwner, other]
  · intro p mine
    have ok := cpus.on c p (here.trans mine)
    refine ⟨rfl, ?_⟩
    unfold RunOk at ok ⊢
    rw [mode, mine]
    rw [mine] at outside
    rcases outside with run | idle
    · rw [run] at ok ⊢
      exact ok
    rw [idle] at ok
    exact ok.elim
  intro mine
  have ok := cpus.idle c (here.trans mine)
  unfold SchedOk at ok ⊢
  rw [mode, mine]
  rw [mine] at outside
  rcases outside with run | idle
  · rw [run] at ok
    exact ok.elim
  rw [idle] at ok ⊢
  exact ⟨ok, fun q claims => absurd claims (not_claims (p := q) (.inl idle))⟩

theorem cpus_release (cpus : Cpus s l) (here : s.cur c = t) (mine : lk ∈ (l t).locks)
    (locks : h.locks = (l t).locks.erase lk) (proc : ∀ p, t = .proc p → (lk ≠ .proc p ∧ h.mode = (l t).mode) ∨
      (lk = .proc p ∧ ((l t).mode = .run ∨ (l t).mode = .away) ∧ h.mode = .run))
    (sched : t = .sched c → (l t).mode = .idle ∧ h.mode = .idle) :
    Cpus ((s.setOwner lk none).setNoff c (s.noff c - 1)) (update l t h) := by
  have holds := (cpus.own c lk).mpr (by rw [here]; exact mine)
  refine cpus_stay cpus here _ rfl ?_ ?_ ?_ ?_ (fun _ _ => rfl) (fun _ _ => .inl rfl) ?_ ?_
  · intro lk'
    rw [locks, Finset.mem_erase, ← here, ← cpus.own c lk']
    by_cases same : lk' = lk
    · simp [Kernel.setOwner, Kernel.setNoff, same]
    · simp [Kernel.setOwner, Kernel.setNoff, same]
  · intro lk' c' other
    by_cases same : lk' = lk
    · have apart : c ≠ c' := fun eq => other eq.symm
      simp [Kernel.setOwner, Kernel.setNoff, same, holds, apart]
    · simp [Kernel.setOwner, Kernel.setNoff, same]
  · rw [locks, Finset.card_erase_of_mem mine, ← here, ← cpus.depth c]
    simp [Kernel.setNoff]
  · intro c' other
    simp [Kernel.setNoff, Kernel.setOwner, other]
  · intro p acting
    have ok := cpus.on c p (here.trans acting)
    refine ⟨rfl, ?_⟩
    change RunOk (s.slot p).state h p
    rcases proc p acting with ⟨other, mode⟩ | ⟨-, prev, mode⟩
    · unfold RunOk at ok ⊢
      rw [mode, locks, acting]
      cases mode' : (l (.proc p)).mode with
      | run | idle | picked _ | named _ | gone _ =>
        rw [mode'] at ok
        exact ok
      | ready st =>
        rw [mode'] at ok
        exact ⟨ok.1, ok.2.1, Finset.mem_erase.mpr ⟨fun eq => other eq.symm, ok.2.2⟩⟩
      | away =>
        rw [mode'] at ok
        exact ⟨ok.1, Finset.mem_erase.mpr ⟨fun eq => other eq.symm, ok.2⟩⟩
    unfold RunOk at ok ⊢
    rw [mode]
    rw [acting] at prev
    rcases prev with run | away
    · rw [run] at ok
      exact ok
    rw [away] at ok
    exact ok.1
  intro acting
  have ok := cpus.idle c (here.trans acting)
  obtain ⟨prev, after⟩ := sched acting
  unfold SchedOk at ok ⊢
  rw [acting] at prev
  rw [prev] at ok
  rw [after, acting]
  exact ⟨ok, fun q claims => absurd claims (not_claims (p := q) (.inl prev))⟩

theorem cpus_ownState (cpus : Cpus s l) (here : s.cur c = .proc p) (s' : Kernel n m X W)
    (cur : s'.cur = s.cur) (cproc : s'.cproc = s.cproc) (owner : s'.owner = s.owner)
    (noff : s'.noff = s.noff) {st : ProcState} (other : st ≠ .running)
    (states : ∀ q, (s'.slot q).state = if q = p then st else (s.slot q).state)
    (mine : .proc p ∈ (l (.proc p)).locks) (locks : h.locks = (l (.proc p)).locks)
    (mode : h.mode = .ready st) : Cpus s' (update l (.proc p) h) := by
  refine cpus_stay cpus here s' cur ?_ ?_ ?_ ?_ ?_ ?_ ?_ ?_
  · intro lk
    rw [owner, locks, ← here]
    exact cpus.own c lk
  · intro lk c' _
    rw [owner]
  · rw [noff, locks, ← here]
    exact cpus.depth c
  · intro c' _
    rw [noff]
  · intro c' _
    rw [cproc]
  · intro q apart
    rw [states q, if_neg fun eq => apart (by rw [eq])]
    exact .inl rfl
  · intro p' acting
    cases acting
    refine ⟨by rw [cproc], ?_⟩
    unfold RunOk
    rw [mode, locks, states p, if_pos rfl]
    exact ⟨other, rfl, mine⟩
  intro acting
  cases acting

theorem cpus_pick (cpus : Cpus s l) (here : s.cur c = .sched c) (idle : (l (.sched c)).mode = .idle)
    (mine : (l (.sched c)).locks = {.proc p}) (state : (s.slot p).state = .runnable)
    (locks : h.locks = (l (.sched c)).locks) (mode : h.mode = .picked p) :
    Cpus (s.setState p .running) (update l (.sched c) h) := by
  have holds : .proc p ∈ (l (.sched c)).locks := sole_lock mine
  have still : (s.slot p).state ≠ .running := by
    rw [state]
    intro eq
    cases eq
  have off := off_of_lock cpus here holds nofun still
  refine cpus_stay cpus here _ rfl ?_ (fun _ _ _ => Iff.rfl) ?_ (fun _ _ => rfl) (fun _ _ => rfl) ?_ ?_ ?_
  · intro lk
    rw [locks, ← here]
    exact cpus.own c lk
  · rw [locks, ← here]
    exact cpus.depth c
  · intro q _
    by_cases same : q = p
    · subst q
      exact .inr ⟨still, holds, fun _ => ⟨rfl, .inl mode⟩⟩
    left
    simp [Kernel.setState, Kernel.setSlot, same]
  · intro p' acting
    cases acting
  intro _
  have ok := cpus.idle c here
  unfold SchedOk at ok ⊢
  rw [idle] at ok
  rw [mode]
  refine ⟨⟨ok, by rw [locks, mine], ?_, off⟩, fun q claims => absurd claims (not_claims (p := q) (.inl idle))⟩
  simp [Kernel.setState, Kernel.setSlot, Slot.setState]

theorem cpus_setProc (cpus : Cpus s l) (here : s.cur c = .sched c) {named : Option (Fin n)}
    (locks : h.locks = (l (.sched c)).locks)
    (stage : (∃ p, named = some p ∧ (l (.sched c)).mode = .picked p ∧ h.mode = .named p) ∨
      (named = none ∧ (∃ p, (l (.sched c)).mode = .gone p) ∧ h.mode = .idle)) :
    Cpus (s.setCproc c named) (update l (.sched c) h) := by
  refine cpus_stay cpus here _ rfl ?_ (fun _ _ _ => Iff.rfl) ?_ (fun _ _ => rfl) ?_
    (fun _ _ => .inl rfl) ?_ ?_
  · intro lk
    rw [locks, ← here]
    exact cpus.own c lk
  · rw [locks, ← here]
    exact cpus.depth c
  · intro c' other
    simp [Kernel.setCproc, other]
  · intro p' acting
    cases acting
  intro _
  have ok := cpus.idle c here
  unfold SchedOk at ok ⊢
  rcases stage with ⟨p, rfl, prev, after⟩ | ⟨rfl, ⟨p, prev⟩, after⟩
  · rw [prev] at ok
    rw [after]
    refine ⟨⟨by simp [Kernel.setCproc], locks.trans ok.2.1, ok.2.2.1, ok.2.2.2⟩, ?_⟩
    intro q claims
    unfold Claims at claims ⊢
    rw [prev] at claims
    rw [after]
    rcases claims with claims | claims
    · cases claims
      exact .inr rfl
    · cases claims
  rw [after]
  exact ⟨by simp [Kernel.setCproc], fun q claims => absurd claims (not_claims (.inr prev))⟩

theorem setCur_cur (s : Kernel n m X W) (c c' : Fin m) (t : Thread n m) :
    (s.setCur c t).cur c' = if c' = c then t else s.cur c' := by
  by_cases same : c' = c
  · simp [Kernel.setCur, same]
  · simp [Kernel.setCur, same]

theorem cpus_switch (cpus : Cpus s l) (here : s.cur c = t) {u : Thread n m} (fresh : ∀ d, s.cur d ≠ u)
    (locks : (l u).locks = (l t).locks) (place : ∀ d, u = .sched d → d = c)
    (busy : ∀ q, u = .proc q → .proc q ∈ (l t).locks ∧ s.cproc c = some q ∧ t = .sched c ∧
      h.mode = .gone q ∧ h.locks = {.proc q})
    (off : ∀ q, t = .proc q → h.mode = .away ∧ h.locks = {.proc q} ∧ (s.slot q).state ≠ .running)
    (on : ∀ q, u = .proc q → RunOk (s.slot q).state (l u) q) (idle : u = .sched c → SchedOk (s.setCur c u) c (l u))
    (claimed : ∀ q, t = .sched c → Claims (l t) q → u = .proc q) : Cpus (s.setCur c u) (update l t h) := by
  have next : update l t h u = l u := update_of_ne (fun eq => fresh c (here.trans eq.symm)) _ _
  have others : ∀ c', c' ≠ c → update l t h (s.cur c') = l (s.cur c') := by
    intro c' other
    refine update_of_ne ?_ _ _
    intro eq
    exact other (cur_inj cpus (eq.trans here.symm))
  have sched : ∀ c', c' ≠ c → update l t h (.sched c') = l (.sched c') := by
    intro c' other
    refine update_of_ne ?_ _ _
    intro eq
    exact other (cpus.place c c' (here.trans eq.symm))
  have ledger : ∀ c', (update l t h ((s.setCur c u).cur c')).locks = (l (s.cur c')).locks := by
    intro c'
    rw [setCur_cur]
    by_cases same : c' = c
    · rw [if_pos same, next, locks, same, here]
    · rw [if_neg same, others c' same]
  constructor
  · intro c' lk
    rw [ledger]
    exact cpus.own c' lk
  · intro c'
    rw [ledger]
    exact cpus.depth c'
  · intro c' d there
    rw [setCur_cur] at there
    by_cases same : c' = c
    · rw [if_pos same] at there
      rw [same]
      exact place d there
    rw [if_neg same] at there
    exact cpus.place c' d there
  · intro c₁ c₂ q first snd
    rw [setCur_cur] at first snd
    by_cases same₁ : c₁ = c
    · by_cases same₂ : c₂ = c
      · rw [same₁, same₂]
      rw [if_pos same₁] at first
      rw [if_neg same₂] at snd
      exact absurd (snd.trans first.symm) (fresh c₂)
    rw [if_neg same₁] at first
    by_cases same₂ : c₂ = c
    · rw [if_pos same₂] at snd
      exact absurd (first.trans snd.symm) (fresh c₁)
    rw [if_neg same₂] at snd
    exact cpus.one c₁ c₂ q first snd
  · intro c' q there
    rw [setCur_cur] at there
    by_cases same : c' = c
    · rw [if_pos same] at there
      obtain ⟨-, named, acting, mode, held⟩ := busy q there
      rw [same, acting, update_self]
      exact ⟨named, mode, held⟩
    rw [if_neg same] at there
    rw [sched c' same]
    exact cpus.busy c' q there
  · intro q away
    by_cases mine : t = .proc q
    · rw [mine, update_self]
      exact ⟨(off q mine).1, (off q mine).2.1⟩
    rw [update_of_ne (Ne.symm mine)]
    apply cpus.off q
    intro c' there
    have apart : c' ≠ c := by
      rintro rfl
      exact mine (here.symm.trans there)
    exact away c' (by rw [setCur_cur, if_neg apart]; exact there)
  · intro c' q there
    rw [setCur_cur] at there
    by_cases same : c' = c
    · rw [if_pos same] at there
      rw [← there, next]
      exact on q there
    rw [if_neg same] at there
    have kept := others c' same
    rw [there] at kept
    rw [kept]
    exact cpus.on c' q there
  · intro c' there
    rw [setCur_cur] at there
    by_cases same : c' = c
    · rw [if_pos same, same] at there
      rw [same, ← there, next]
      exact idle there
    rw [if_neg same] at there
    rw [sched c' same]
    have ok := cpus.idle c' there
    have kept : ∀ q, s.Off q → (l (.sched c')).locks = {.proc q} → (s.setCur c u).Off q := by
      intro q away held d there'
      rw [setCur_cur] at there'
      by_cases at_c : d = c
      · rw [if_pos at_c] at there'
        have mine := (busy q there').1
        rw [← here] at mine
        refine same (lock_excl cpus ?_ mine)
        rw [there, held]
        exact Finset.mem_singleton_self _
      rw [if_neg at_c] at there'
      exact away d there'
    unfold SchedOk at ok ⊢
    cases mode : (l (.sched c')).mode with
    | idle | run | ready _ | away =>
      rw [mode] at ok
      exact ok
    | picked q | named q | gone q =>
      rw [mode] at ok
      exact ⟨ok.1, ok.2.1, ok.2.2.1, kept q ok.2.2.2 ok.2.1⟩
  intro q running
  rcases cpus.running q running with ⟨c', there⟩ | ⟨c', there, claims⟩
  · have apart : c' ≠ c := by
      rintro rfl
      exact (off q (here.symm.trans there)).2.2 running
    exact .inl ⟨c', by rw [setCur_cur, if_neg apart]; exact there⟩
  by_cases same : c' = c
  · rw [same] at there claims
    have acting := here.symm.trans there
    rw [← acting] at claims
    exact .inl ⟨c, by rw [setCur_cur, if_pos rfl]; exact claimed q acting claims⟩
  · exact .inr ⟨c', by rw [setCur_cur, if_neg same]; exact there, by rw [sched c' same]; exact claims⟩

theorem cpus_loadProc (cpus : Cpus s l) (here : s.cur c = .sched c) (stage : (l (.sched c)).mode = .named p)
    (locks : h.locks = (l (.sched c)).locks) (mode : h.mode = .gone p) :
    Cpus (s.setCur c (.proc p)) (update l (.sched c) h) := by
  have ok := cpus.idle c here
  unfold SchedOk at ok
  rw [stage] at ok
  obtain ⟨named, mine, state, away⟩ := ok
  obtain ⟨suspended, its⟩ := cpus.off p away
  refine cpus_switch cpus here away (its.trans mine.symm) nofun ?_ nofun ?_ nofun ?_
  · rintro q ⟨⟩
    refine ⟨?_, named, rfl, mode, locks.trans mine⟩
    rw [mine]
    exact Finset.mem_singleton_self _
  · rintro q ⟨⟩
    unfold RunOk
    rw [suspended, its]
    exact ⟨state, Finset.mem_singleton_self _⟩
  intro q _ claims
  unfold Claims at claims
  rw [stage] at claims
  rcases claims with claims | claims
  · cases claims
  cases claims
  rfl

theorem cpus_loadSched (cpus : Cpus s l) (here : s.cur c = .proc p) {st : ProcState}
    (stage : (l (.proc p)).mode = .ready st) (mine : (l (.proc p)).locks = {.proc p})
    (locks : h.locks = (l (.proc p)).locks) (mode : h.mode = .away) :
    Cpus (s.setCur c (.sched c)) (update l (.proc p) h) := by
  have ok := cpus.on c p here
  unfold RunOk at ok
  rw [stage] at ok
  have still : (s.slot p).state ≠ .running := by
    rw [ok.2.1]
    exact ok.1
  obtain ⟨named, gone, its⟩ := cpus.busy c p here
  refine cpus_switch cpus here ?_ (its.trans mine.symm) ?_ nofun ?_ nofun ?_ nofun
  · intro d there
    rw [cpus.place d c there, there] at here
    cases here
  · rintro d ⟨⟩
    rfl
  · rintro q ⟨⟩
    exact ⟨mode, locks.trans mine, still⟩
  intro _
  unfold SchedOk
  rw [gone]
  refine ⟨named, its, still, ?_⟩
  intro d there
  rw [setCur_cur] at there
  by_cases same : d = c
  · rw [if_pos same] at there
    cases there
  rw [if_neg same] at there
  exact same (cpus.one d c p there here)

end

end Xv6Kern
