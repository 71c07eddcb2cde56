import Xv6.KernelKnow

/- What the processes know, and the parents, over every operation. -/
namespace Xv6Kern
open Threads Prog Xv6Proc Function

section
variable {n m : Nat} {X Y W : Type} {s s' : Kernel n m X W}
  {l : Thread n m → Ledger n X Y W} {c c' : Fin m} {t : Thread n m} {p q : Fin n} {h : Ledger n X Y W}
  {lk : Lk n} {init : Fin n} {E : Ext n X Y W} {o : Op n X Y W} {a : Ans o}
variable {k : Ledger n X Y W}

section
variable (cpus : Cpus s l) (family : Family init s l) (here : s.cur c = t) (frame : Frame s s' (l t))
  (mine : ∀ p, t = .proc p → Known s' h p)
include cpus family here frame mine

theorem family_keep (single : ∀ q, h.know.child = some q →
      (l t).know.child = some q ∨ (∃ p, t = .proc p) ∧ (s.slot q).state = .unused)
    (orphan : ∀ q, (s'.slot q).state = .unused → s'.parent q = none)
    (maker : ∀ q p, (s'.slot q).state = .used → s'.parent q = some p → (update l t h (.proc p)).know.child = some q)
    (root : s'.parent init = none) (self : ∀ q, s'.parent q ≠ some q)
    (alive : (s'.slot init).state ≠ .unused ∧ (s'.slot init).state ≠ .used ∧ (s'.slot init).state ≠ .zombie) :
    Family init s' (update l t h) := by
  -- a slot that this thread fills is nobody else's
  have fresh : ∀ p q, t ≠ .proc p → h.know.child = some q → (l (.proc p)).know.child ≠ some q := by
    intro p q apart now other
    rcases single q now with prev | ⟨-, unused⟩
    · cases t with
      | sched d =>
        rw [family.plain d] at prev
        cases prev
      | proc p' =>
        rw [family.single p' p q prev other] at apart
        exact apart rfl
    rw [((family.known p).child q other).2.1] at unused
    cases unused
  refine ⟨?_, ?_, ?_, orphan, maker, root, self, alive⟩
  · intro p
    by_cases acting : t = .proc p
    · rw [acting, update_self]
      exact mine p acting
    rw [update_of_ne (Ne.symm acting)]
    apply known_other cpus here acting (family.known p) frame
    intro q child prev
    cases t with
    | sched d =>
      rw [family.plain d] at prev
      cases prev
    | proc p' =>
      rw [family.single p p' q child prev] at acting
      exact acting rfl
  · intro p p' q first snd
    by_cases acting : t = .proc p
    · by_cases acting' : t = .proc p'
      · rw [acting] at acting'
        exact Thread.proc.inj acting'
      rw [acting, update_self] at first
      rw [update_of_ne (Ne.symm acting')] at snd
      exact absurd snd (fresh p' q acting' first)
    rw [update_of_ne (Ne.symm acting)] at first
    by_cases acting' : t = .proc p'
    · rw [acting', update_self] at snd
      exact absurd first (fresh p q acting snd)
    rw [update_of_ne (Ne.symm acting')] at snd
    exact family.single p p' q first snd
  intro d
  by_cases acting : t = .sched d
  · rw [acting, update_self]
    cases child : h.know.child with
    | none => rfl
    | some q =>
      rcases single q child with prev | ⟨⟨p, other⟩, -⟩
      · rw [acting, family.plain d] at prev
        cases prev
      rw [acting] at other
      cases other
  rw [update_of_ne (Ne.symm acting)]
  exact family.plain d

theorem family_same (child : h.know.child = (l t).know.child) (parent : s'.parent = s.parent)
    (states : ∀ q, ((s'.slot q).state = .unused → (s.slot q).state = .unused) ∧
      ((s'.slot q).state = .used → (s.slot q).state = .used) ∧
      ((s'.slot q).state = .zombie → (s.slot q).state = .zombie ∨ q ≠ init)) : Family init s' (update l t h) := by
  refine family_keep cpus family here frame mine ?_ ?_ ?_ ?_ ?_ ?_
  · intro q now
    rw [child] at now
    exact .inl now
  · intro q unused
    rw [parent]
    exact family.orphan q ((states q).1 unused)
  · intro q p used of
    rw [parent] at of
    have prev := family.maker q p ((states q).2.1 used) of
    by_cases acting : t = .proc p
    · rw [acting, update_self, child, acting]
      exact prev
    rw [update_of_ne (Ne.symm acting)]
    exact prev
  · rw [parent]
    exact family.root
  · rw [parent]
    exact family.self
  obtain ⟨unused, used, zombie⟩ := states init
  obtain ⟨first, snd, third⟩ := family.alive
  refine ⟨fun now => first (unused now), fun now => snd (used now), fun now => ?_⟩
  rcases zombie now with prev | other
  · exact third prev
  · exact other rfl

end

theorem known_slots (known : Known s k p) (self : s.parent p ≠ some p)
    (parent : s'.parent = s.parent) (ext : s'.ext = s.ext)
    (slots : ∀ q, q ≠ p → (s'.slot q).pid = (s.slot q).pid ∧ ((s'.slot q).state = (s.slot q).state ∨
      (s.slot q).state = .sleeping ∧ (s'.slot q).state = .runnable))
    (locks : k.locks ⊆ h.locks) (know : h.know = k.know) (view : h.view = k.view) : Known s' h p := by
  have state : ∀ q st, st ≠ .sleeping → q ≠ p → (s.slot q).state = st → (s'.slot q).state = st := by
    intro q st awake other prev
    rcases (slots q other).2 with same | ⟨asleep, -⟩
    · rw [same]
      exact prev
    rw [prev] at asleep
    exact absurd asleep awake
  constructor
  · intro q vacant
    rw [know] at vacant
    obtain ⟨other, holds, unused⟩ := known.vacant q vacant
    exact ⟨other, locks holds, state q _ nofun other unused⟩
  · intro q child
    rw [know] at child ⊢
    obtain ⟨other, used, prev, after⟩ := known.child q child
    rw [parent]
    exact ⟨other, state q _ nofun other used, prev, after⟩
  · intro r par
    rw [know] at par
    obtain ⟨holds, same⟩ := known.par r par
    rw [parent]
    exact ⟨locks holds, same⟩
  · intro q quiet
    rw [know] at quiet
    obtain ⟨holds, none⟩ := known.quiet q quiet
    refine ⟨locks holds, ?_⟩
    rintro ⟨of, dead⟩
    rw [parent] at of
    by_cases same : q = p
    · rw [same] at of
      exact self of
    rcases (slots q same).2 with kept | ⟨-, awake⟩
    · rw [kept] at dead
      exact none ⟨of, dead⟩
    rw [awake] at dead
    cases dead
  · intro q strange
    rw [know] at strange
    obtain ⟨holds, none⟩ := known.strange q strange
    rw [parent]
    exact ⟨locks holds, none⟩
  · intro q kid
    rw [know] at kid
    obtain ⟨holds, of⟩ := known.kid q kid
    rw [parent]
    exact ⟨locks holds, of⟩
  · intro q pid found
    rw [know] at found
    obtain ⟨other, holds, holds', dead, num, of⟩ := known.found q pid found
    rw [parent, (slots q other).1]
    exact ⟨other, locks holds, locks holds', state q _ nofun other dead, num, of⟩
  intro x seen
  rw [view] at seen
  obtain ⟨holds, same⟩ := known.view x seen
  rw [ext]
  exact ⟨locks holds, same⟩

theorem drop_know (k : Ledger n X Y W) (lk : Lk n) :
    (∀ q, (k.drop lk).know.vacant = some q → k.know.vacant = some q ∧ lk ≠ .proc q) ∧
    (k.drop lk).know.child = k.know.child ∧ (k.drop lk).know.adopted = k.know.adopted ∧
    (∀ r, (k.drop lk).know.par = some r → k.know.par = some r ∧ lk ≠ .wait) ∧
    (∀ q, (k.drop lk).know.quiet q → k.know.quiet q ∧ lk ≠ .wait) ∧
    (∀ q, (k.drop lk).know.strange q → k.know.strange q ∧ lk ≠ .wait) ∧
    (∀ q, (k.drop lk).know.kid = some q → k.know.kid = some q ∧ lk ≠ .wait) ∧
    (∀ q pid, (k.drop lk).know.found = some (q, pid) → k.know.found = some (q, pid) ∧ lk ≠ .wait ∧ lk ≠ .proc q) ∧
    (k.drop lk).know.newpid = k.know.newpid ∧ (k.drop lk).know.owed = k.know.owed := by
  cases lk <;> simp [Ledger.drop, Know.setVacant, Know.setFound, Know.setPar, Know.setQuiet,
    Know.setStrange, Know.setKid]

theorem known_drop (known : Known s k p) (slot : s'.slot = s.slot)
    (parent : s'.parent = s.parent) (ext : s'.ext = s.ext) (locks : h.locks = k.locks.erase lk)
    (know : h.know = (k.drop lk).know) (view : h.view = (k.drop lk).view) : Known s' h p := by
  have kept : ∀ lk', lk' ∈ k.locks → lk ≠ lk' → lk' ∈ h.locks := by
    intro lk' holds other
    rw [locks]
    exact Finset.mem_erase.mpr ⟨other.symm, holds⟩
  obtain ⟨vacant, child, adopted, par, quiet, strange, kid, found, -, -⟩ := drop_know k lk
  rw [← know] at vacant child adopted par quiet strange kid found
  constructor
  · intro q now
    obtain ⟨prev, other⟩ := vacant q now
    obtain ⟨apart, holds, unused⟩ := known.vacant q prev
    rw [slot]
    exact ⟨apart, kept _ holds other, unused⟩
  · intro q now
    rw [child] at now
    rw [adopted, slot, parent]
    exact known.child q now
  · intro r now
    obtain ⟨prev, other⟩ := par r now
    obtain ⟨holds, same⟩ := known.par r prev
    rw [parent]
    exact ⟨kept _ holds other, same⟩
  · intro q now
    obtain ⟨prev, other⟩ := quiet q now
    obtain ⟨holds, none⟩ := known.quiet q prev
    rw [parent, slot]
    exact ⟨kept _ holds other, none⟩
  · intro q now
    obtain ⟨prev, other⟩ := strange q now
    obtain ⟨holds, none⟩ := known.strange q prev
    rw [parent]
    exact ⟨kept _ holds other, none⟩
  · intro q now
    obtain ⟨prev, other⟩ := kid q now
    obtain ⟨holds, of⟩ := known.kid q prev
    rw [parent]
    exact ⟨kept _ holds other, of⟩
  · intro q pid now
    obtain ⟨prev, other, other'⟩ := found q pid now
    obtain ⟨apart, holds, holds', rest⟩ := known.found q pid prev
    rw [parent, slot]
    exact ⟨apart, kept _ holds other, kept _ holds' other', rest⟩
  intro x now
  rw [view] at now
  simp only [Ledger.drop] at now
  split at now
  · cases now
  rename_i other
  obtain ⟨holds, same⟩ := known.view x now
  rw [ext]
  exact ⟨kept _ holds other, same⟩

theorem book_release_know (E : Ext n X Y W) (init : Fin n) (me : Option (Fin n)) (l : Ledger n X Y W)
    (lk : Lk n) : (book E init me l (.release lk) ()).know = (l.drop lk).know ∧
      (book E init me l (.release lk) ()).view = (l.drop lk).view := by
  obtain ⟨mode, after, -⟩ := book_release E init me l lk
  rw [after]
  exact ⟨rfl, rfl⟩

theorem vacant_ne {r : Fin n} (known : Known s k p) (vacant : k.know.vacant = some r)
    (other : (s.slot q).state ≠ .unused) : r ≠ q := by
  rintro rfl
  exact other (known.vacant r vacant).2.2

theorem found_ne {r : Fin n} {pid : Nat} (known : Known s k p)
    (found : k.know.found = some (r, pid)) (other : (s.slot q).state ≠ .zombie) : r ≠ q := by
  rintro rfl
  exact other (known.found r pid found).2.2.2.1

theorem known_change (known : Known s k p) (other : q ≠ p)
    (slots : ∀ r, r ≠ q → s'.slot r = s.slot r) (parents : ∀ r, r ≠ q → s'.parent r = s.parent r)
    (ext : s'.ext = s.ext) (locks : h.locks = k.locks) (view : h.view = k.view)
    (vacant : ∀ r, h.know.vacant = some r → k.know.vacant = some r ∧ r ≠ q) (child : ∀ r, h.know.child = some r →
      (k.know.child = some r ∧ h.know.adopted = k.know.adopted ∧ r ≠ q) ∨ (r = q ∧
        (s'.slot q).state = .used ∧ (h.know.adopted = false → s'.parent q = none) ∧
        (h.know.adopted = true → s'.parent q = some p))) (par : h.know.par = k.know.par)
    (quiet : ∀ r, h.know.quiet r → k.know.quiet r ∧ (r = q → (s'.slot q).state ≠ .zombie))
    (strange : ∀ r, h.know.strange r → .wait ∈ k.locks ∧ s'.parent r ≠ some p)
    (kid : ∀ r, h.know.kid = some r → k.know.kid = some r ∧ s'.parent r = s.parent r)
    (found : ∀ r pid, h.know.found = some (r, pid) → k.know.found = some (r, pid) ∧ r ≠ q) : Known s' h p := by
  constructor
  · intro r now
    obtain ⟨prev, apart⟩ := vacant r now
    rw [slots r apart, locks]
    exact known.vacant r prev
  · intro r now
    rcases child r now with ⟨prev, adopted, apart⟩ | ⟨rfl, made⟩
    · rw [slots r apart, parents r apart, adopted]
      exact known.child r prev
    · exact ⟨other, made⟩
  · intro r now
    rw [par] at now
    rw [parents p other.symm, locks]
    exact known.par r now
  · intro r now
    obtain ⟨prev, alive⟩ := quiet r now
    obtain ⟨holds, none⟩ := known.quiet r prev
    rw [locks]
    refine ⟨holds, ?_⟩
    rintro ⟨of, dead⟩
    by_cases same : r = q
    · rw [same] at dead
      exact alive same dead
    rw [parents r same] at of
    rw [slots r same] at dead
    exact none ⟨of, dead⟩
  · intro r now
    rw [locks]
    exact strange r now
  · intro r now
    obtain ⟨prev, same⟩ := kid r now
    rw [same, locks]
    exact known.kid r prev
  · intro r pid now
    obtain ⟨prev, apart⟩ := found r pid now
    rw [slots r apart, parents r apart, locks]
    exact known.found r pid prev
  intro x now
  rw [view] at now
  rw [ext, locks]
  exact known.view x now

theorem strange_clear (known : Known s k p) (r : Fin n) (strange : k.know.strange r) :
    .wait ∈ k.locks ∧ (s.freeproc q).parent r ≠ some p := by
  obtain ⟨wait, none⟩ := known.strange r strange
  refine ⟨wait, ?_⟩
  by_cases same : r = q
  · rw [same]
    simp [Kernel.freeproc, Kernel.setParent]
  rw [show (s.freeproc q).parent r = s.parent r from update_of_ne same _ _]
  exact none

theorem child_book (E : Ext n X Y W) (init : Fin n) (me : Option (Fin n)) (k : Ledger n X Y W)
    (o : Op n X Y W) (a : Ans o) (taken : ∀ q pid, o ≠ .setUsed q pid) (freed : ∀ q, o ≠ .freeproc q)
    (adopted : ∀ q, o ≠ .adopt q) (done : ∀ q, o ≠ .setRunnable q) :
    (book E init me k o a).know.child = k.know.child := by
  cases o with
  | release lk =>
    rw [(book_release_know E init me k lk).1]
    exact (drop_know k lk).2.1
  | sleepRelease w lk => exact (drop_know k lk).2.1
  | setUsed q pid => exact absurd rfl (taken q pid)
  | freeproc q => exact absurd rfl (freed q)
  | adopt q => exact absurd rfl (adopted q)
  | setRunnable q => exact absurd rfl (done q)
  | pick q | isUnused q =>
    cases a with
    | false => rfl
    | true => rfl
  | setProc q =>
    cases q with
    | none => rfl
    | some q => rfl
  | zombie q =>
    cases a with
    | none => rfl
    | some pid => rfl
  | parent q =>
    simp only [book]
    split
    · split
      · rfl
      · rfl
    split
    · rfl
    · rfl
  | _ => rfl

section
variable (cpus : Cpus s l) (family : Family init s l) (here : s.cur c = t) (frame : Frame s s' (l t))
  (mine : ∀ p, t = .proc p → Known s' h p) (parent : s'.parent = s.parent)
include cpus family here frame mine parent

theorem family_slot {x : Slot n W}
    (slot : s'.slot = update s.slot q x) (unused : x.state = .unused → (s.slot q).state = .unused)
    (used : x.state = .used → (s.slot q).state = .used)
    (zombie : x.state = .zombie → (s.slot q).state = .zombie ∨ q ≠ init)
    (child : h.know.child = (l t).know.child) : Family init s' (update l t h) := by
  apply family_same cpus family here frame mine child parent
  intro r
  rw [slot]
  by_cases same : r = q
  · rw [same, update_self]
    exact ⟨unused, used, zombie⟩
  rw [update_of_ne same]
  exact ⟨id, id, .inl⟩

theorem family_still (slot : s'.slot = s.slot) (child : h.know.child = (l t).know.child) :
    Family init s' (update l t h) := by
  apply family_same cpus family here frame mine child parent
  intro q
  rw [slot]
  exact ⟨id, id, .inl⟩

end

theorem family_change (cpus : Cpus s l) (family : Family init s l) (here : s.cur c = .proc p)
    (frame : Frame s s' (l (.proc p))) (mine : ∀ r, (.proc p : Thread n m) = .proc r → Known s' h r)
    (slots : ∀ r, r ≠ q → s'.slot r = s.slot r) (parents : ∀ r, r ≠ q → s'.parent r = s.parent r)
    (others : ∀ r, r ≠ q → (h.know.child = some r ↔ (l (.proc p)).know.child = some r))
    (single : h.know.child = some q → (l (.proc p)).know.child = some q ∨ (s.slot q).state = .unused)
    (orphan : (s'.slot q).state = .unused → s'.parent q = none)
    (maker : ∀ p', (s'.slot q).state = .used → s'.parent q = some p' → p' = p ∧ h.know.child = some q)
    (root : init ≠ q) (self : s'.parent q ≠ some q) : Family init s' (update l (.proc p) h) := by
  refine family_keep cpus family here frame mine ?_ ?_ ?_ ?_ ?_ ?_
  · intro r now
    by_cases same : r = q
    · subst r
      exact (single now).imp_right fun unused => ⟨⟨p, rfl⟩, unused⟩
    · exact .inl ((others r same).mp now)
  · intro r now
    by_cases same : r = q
    · subst r
      exact orphan now
    rw [slots r same] at now
    exact (parents r same).trans (family.orphan r now)
  · intro r p' now of
    by_cases same : r = q
    · subst r
      obtain ⟨rfl, child⟩ := maker p' now of
      rw [update_self]
      exact child
    rw [slots r same] at now
    rw [parents r same] at of
    have prev := family.maker r p' now of
    by_cases acting : p' = p
    · rw [acting] at prev ⊢
      rw [update_self]
      exact (others r same).mpr prev
    rw [update_of_ne fun eq => acting (Thread.proc.inj eq)]
    exact prev
  · exact (parents init root).trans family.root
  · intro r of
    by_cases same : r = q
    · subst r
      exact self of
    · exact family.self r ((parents r same).symm.trans of)
  rw [slots init root]
  exact family.alive

variable [DecidableEq W]

theorem known_step (cpus : Cpus s l) (family : Family init s l) (here : s.cur c = .proc p)
    (ok : allowsProc E init p (l (.proc p)) o) (done : nextProc init c p o s = some (a, s')) :
    Known s' (book E init (some p) (l (.proc p)) o a) p := by
  have known := family.known p
  have self := family.self p
  cases o with
  | acquire lk =>
    obtain ⟨-, rfl⟩ := acquire_done done
    exact known_slots known self rfl rfl (fun _ _ => ⟨rfl, .inl rfl⟩) (Finset.subset_insert _ _) rfl rfl
  | release lk =>
    obtain rfl := release_done done
    obtain ⟨know, view⟩ := book_release_know E init (some p) (l (.proc p)) lk
    exact known_drop known rfl rfl rfl (book_release_locks _ _ _ _ _) know view
  | sleepRelease w lk =>
    obtain rfl := release_done done
    exact known_drop known rfl rfl rfl rfl rfl rfl
  | schedCheck =>
    obtain ⟨-, rfl⟩ := check_done done
    exact known
  | checkInit =>
    obtain ⟨-, rfl⟩ := refuse_done done
    exact known
  | goSleep w | giveUp | clearChan =>
    cases done
    refine known_slots known self rfl rfl ?_ (Finset.Subset.refl _) rfl rfl
    intro q other
    simp [Kernel.setState, Kernel.setSlot, other]
  | setZombie status =>
    cases done
    have left : Known s ((l (.proc p)).setKnow ((l (.proc p)).know.setLeaving false)) p := { known with }
    refine known_slots left self rfl rfl ?_ (Finset.Subset.refl _) rfl rfl
    intro q other
    simp [Kernel.setHist, Kernel.setSlot, other]
  | wakeIf q w =>
    cases done
    refine known_slots known self ?_ ?_ ?_ (Finset.Subset.refl _) rfl rfl
    · unfold Kernel.wakeIf
      split
      · rfl
      · rfl
    · unfold Kernel.wakeIf
      split
      · rfl
      · rfl
    intro r _
    unfold Kernel.wakeIf
    split
    · rename_i asleep
      by_cases same : r = q
      · rw [same]
        simp [Kernel.setState, Kernel.setSlot, Slot.setState, asleep.1]
      · simp [Kernel.setState, Kernel.setSlot, same]
    · exact ⟨rfl, .inl rfl⟩
  | killIf q pid =>
    obtain ⟨-, -, rfl⟩ | ⟨-, rfl⟩ := test_done done
    · refine known_slots known self rfl rfl ?_ (Finset.Subset.refl _) rfl rfl
      intro r _
      by_cases same : r = q
      · rw [same]
        simpa [Kernel.setSlot, Slot.kill] using kill_state (s.slot q)
      · simp [Kernel.setSlot, same]
    · exact known
  | isUnused q =>
    obtain ⟨answer, rfl⟩ := Prod.mk.inj (Option.some.inj done)
    cases a with
    | false => exact known
    | true =>
      have unused : (s.slot q).state = .unused := of_decide_eq_true answer
      refine { known with vacant := ?_ }
      intro r vacant
      obtain rfl : q = r := Option.some.inj vacant
      refine ⟨?_, ok.1, unused⟩
      rintro rfl
      rw [state_run cpus here ok.2] at unused
      cases unused
  | setUsed q pid =>
    obtain ⟨other, vacant, -, -⟩ := ok
    obtain ⟨-, mine, unused⟩ := known.vacant q vacant
    cases done
    have used : ((s.setSlot q ((s.slot q).use pid)).slot q).state = .used := by
      simp [Kernel.setSlot, Slot.use]
    refine known_change known other (fun r apart => update_of_ne apart _ _) (fun _ _ => rfl) rfl rfl
      rfl (by rintro _ ⟨⟩) ?_ rfl ?_ known.strange (fun _ kid => ⟨kid, rfl⟩) ?_
    · intro r child
      exact .inr ⟨(Option.some.inj child).symm, used, fun _ => family.orphan q unused, by rintro ⟨⟩⟩
    · intro r quiet
      refine ⟨quiet, fun _ dead => ?_⟩
      rw [used] at dead
      cases dead
    intro r num found
    refine ⟨found, ?_⟩
    rintro rfl
    have dead := (known.found r num found).2.2.2.1
    rw [unused] at dead
    cases dead
  | freeproc q =>
    obtain ⟨mine, other, child, fresh⟩ := ok
    obtain ⟨-, used, parent, -⟩ := known.child q child
    cases done
    refine known_change known other (fun r apart => update_of_ne apart _ _)
      (fun r apart => update_of_ne apart _ _) rfl rfl rfl ?_ (by rintro _ ⟨⟩) rfl ?_ (fun r strange => strange_clear known r strange) ?_ ?_
    · exact fun r vacant => ⟨vacant, vacant_ne known vacant (by rw [used]; simp)⟩
    · intro r quiet
      refine ⟨quiet, fun _ => ?_⟩
      simp [Kernel.freeproc, Kernel.setParent, Kernel.setSlot, Slot.clear]
    · intro r kid
      refine ⟨kid, ?_⟩
      by_cases same : r = q
      · rw [same] at kid
        rw [(known.kid q kid).2] at parent
        cases parent fresh
      · exact update_of_ne same _ _
    · exact fun r num found => ⟨found, found_ne known found (by rw [used]; simp)⟩
  | setRunnable q =>
    obtain ⟨mine, other, child, -⟩ := ok
    obtain ⟨-, used, -⟩ := known.child q child
    cases done
    refine known_change known other (fun r apart => update_of_ne apart _ _) (fun _ _ => rfl)
      rfl rfl rfl ?_ (by rintro _ ⟨⟩) rfl ?_ known.strange (fun _ kid => ⟨kid, rfl⟩) ?_
    · exact fun r vacant => ⟨vacant, vacant_ne known vacant (by rw [used]; simp)⟩
    · intro r quiet
      refine ⟨quiet, fun _ => ?_⟩
      simp [Kernel.setState, Kernel.setSlot, Slot.setState]
    · exact fun r num found => ⟨found, found_ne known found (by rw [used]; simp)⟩
  | adopt q =>
    obtain ⟨-, other, child, -⟩ := ok
    obtain ⟨-, used, -⟩ := known.child q child
    cases done
    have of : update s.parent q (some p) q = some p := update_self q _ _
    refine known_change known other (fun _ _ => rfl) (fun r apart => update_of_ne apart _ _)
      rfl rfl rfl ?_ ?_ rfl ?_ ?_ ?_ ?_
    · exact fun r vacant => ⟨vacant, vacant_ne known vacant (by rw [used]; simp)⟩
    · intro r now
      exact .inr ⟨(Option.some.inj now).symm, used, by rintro ⟨⟩, fun _ => of⟩
    · intro r quiet
      refine ⟨quiet, fun _ dead => ?_⟩
      rw [show ((s.setParent q (some p)).setHist _).slot q = s.slot q from rfl, used] at dead
      cases dead
    · rintro r ⟨strange, apart⟩
      obtain ⟨wait, none⟩ := known.strange r strange
      exact ⟨wait, fun now => none ((update_of_ne apart _ _).symm.trans now)⟩
    · intro r kid
      refine ⟨kid, ?_⟩
      by_cases same : r = q
      · rw [same] at kid ⊢
        exact of.trans (known.kid q kid).2.symm
      · exact update_of_ne same _ _
    · exact fun r num found => ⟨found, found_ne known found (by rw [used]; simp)⟩
  | parent q =>
    obtain ⟨answer, rfl⟩ := Prod.mk.inj (Option.some.inj done)
    have told : Known s ((l (.proc p)).setKnow (if some q = some p then
        (l (.proc p)).know.setPar (some a) else (l (.proc p)).know)) p := by
      split
      · rename_i same
        refine { known with par := ?_ }
        intro r par
        refine ⟨ok, ?_⟩
        rw [← Option.some.inj same, answer]
        exact Option.some.inj par
      · exact known
    simp only [book]
    generalize (if some q = some p then (l (.proc p)).know.setPar (some a) else (l (.proc p)).know) = k at told
    split
    · rename_i of
      refine { told with kid := ?_ }
      intro r kid
      rw [← Option.some.inj kid]
      exact ⟨ok, answer.trans of⟩
    rename_i of
    refine { told with quiet := ?_, strange := ?_, kid := by rintro _ ⟨⟩ }
    · intro r quiet
      rcases quiet with prev | rfl
      · exact told.quiet r prev
      refine ⟨ok, ?_⟩
      rintro ⟨mine, -⟩
      rw [answer] at mine
      exact of mine
    intro r strange
    rcases strange with prev | rfl
    · exact told.strange r prev
    refine ⟨ok, ?_⟩
    rw [answer]
    exact of
  | passOn q =>
    obtain ⟨root, -, wait, kid, spare⟩ := ok
    have other : q ≠ p := fun same => self (by rw [same] at kid; exact (known.kid p kid).2)
    cases done
    refine known_change known other (fun _ _ => rfl) (fun r apart => update_of_ne apart _ _)
      rfl rfl rfl ?_ ?_ rfl ?_ ?_ (by rintro _ ⟨⟩) (by rintro _ _ ⟨⟩)
    · intro r vacant
      refine ⟨vacant, ?_⟩
      rintro rfl
      have none := family.orphan r (known.vacant r vacant).2.2
      rw [(known.kid r kid).2] at none
      cases none
    · intro r child
      refine .inl ⟨child, rfl, ?_⟩
      rintro rfl
      exact spare child
    · intro r quiet
      refine ⟨quiet, ?_⟩
      rintro rfl dead
      exact (known.quiet r quiet).2 ⟨(known.kid r kid).2, dead⟩
    intro r strange
    by_cases same : r = q
    · refine ⟨wait, ?_⟩
      rw [same]
      simp only [Kernel.setParent, update_self]
      exact fun eq => root (Option.some.inj eq).symm
    obtain ⟨-, none⟩ := known.strange r (strange.resolve_right same)
    exact ⟨wait, fun now => none ((update_of_ne same _ _).symm.trans now)⟩
  | zombie q =>
    obtain ⟨-, mine, other, wait, kid⟩ := ok
    obtain ⟨answer, rfl⟩ := Prod.mk.inj (Option.some.inj done)
    cases a with
    | none =>
      refine { known with quiet := ?_ }
      intro r quiet
      rcases quiet with prev | rfl
      · exact known.quiet r prev
      refine ⟨wait, ?_⟩
      rintro ⟨-, dead⟩
      rw [if_pos dead] at answer
      cases answer
    | some pid =>
      refine { known with found := ?_ }
      intro r num found
      obtain ⟨rfl, rfl⟩ := Prod.mk.inj (Option.some.inj found)
      split at answer
      · rename_i dead
        exact ⟨other, wait, mine, dead, Option.some.inj answer, (known.kid q kid).2⟩
      · cases answer
  | reap q addr =>
    obtain ⟨other, -, -, num, found⟩ := ok
    obtain ⟨-, wait, mine, dead, -⟩ := known.found q num found
    cases done
    refine known_change known other (fun r apart => update_of_ne apart _ _)
      (fun r apart => update_of_ne apart _ _) rfl rfl rfl ?_ ?_ rfl ?_ (fun r strange => strange_clear known r strange)
      (by rintro _ ⟨⟩) (by rintro _ _ ⟨⟩)
    · exact fun r vacant => ⟨vacant, vacant_ne known vacant (by rw [dead]; simp)⟩
    · intro r child
      refine .inl ⟨child, rfl, ?_⟩
      rintro rfl
      rw [(known.child r child).2.1] at dead
      cases dead
    intro r quiet
    refine ⟨quiet, fun _ => ?_⟩
    simp [Kernel.setHist, Kernel.freeproc, Kernel.setParent, Kernel.setSlot, Slot.clear]
  | get =>
    cases done
    refine { known with view := ?_ }
    intro x view
    exact ⟨ok, Option.some.inj view⟩
  | stamp f y =>
    cases done
    exact { known with view := by rintro _ ⟨⟩ }
  | put x y =>
    cases done
    refine { known with view := ?_ }
    intro x' view
    exact ⟨ok.1, Option.some.inj view⟩
  | takePid | waitReturn r | save | loadSched | killed | pid | woke w | clearThread q | copyout q addr | youAThread =>
    cases done
    exact { known with }
  | never => cases done
  | pick q | setProc q | loadProc q => cases ok

theorem wakeIf_states (s : Kernel n m X W) (q : Fin n) (w : Option (Chan n W)) (r : Fin n) :
    (((s.wakeIf q w).slot r).state = .unused → (s.slot r).state = .unused) ∧
      (((s.wakeIf q w).slot r).state = .used → (s.slot r).state = .used) ∧
      (((s.wakeIf q w).slot r).state = .zombie → (s.slot r).state = .zombie) := by
  unfold Kernel.wakeIf
  split
  · by_cases same : r = q
    · rw [same]
      simp [Kernel.setState, Kernel.setSlot, Slot.setState]
    · simp [Kernel.setState, Kernel.setSlot, same]
  · exact ⟨id, id, id⟩

section
variable (cpus : Cpus s l) (family : Family init s l)
include cpus family

theorem family_wakeIf (here : s.cur c = t) (w : Option (Chan n W)) (frame : Frame s (s.wakeIf q w) (l t))
    (mine : ∀ p, t = .proc p → Known (s.wakeIf q w) h p) (child : h.know.child = (l t).know.child) :
    Family init (s.wakeIf q w) (update l t h) := by
  refine family_same cpus family here frame mine child ?_ ?_
  · unfold Kernel.wakeIf
    split
    · rfl
    · rfl
  intro r
  obtain ⟨unused, used, zombie⟩ := wakeIf_states s q w r
  exact ⟨unused, used, fun now => .inl (zombie now)⟩

theorem family_sched {d : Fin m} (here : s.cur c = .sched d)
    (ok : allowsSched (l (.sched d)) o) (done : nextSched c o s = some (a, s')) :
    Family init s' (update l (.sched d) (book E init none (l (.sched d)) o a)) := by
  have frame : Frame s s' (l (.sched d)) := op_frame (E := E) cpus family here ok done
  have mine : ∀ p, (.sched d : Thread n m) = .proc p → Known s' (book E init none (l (.sched d)) o a) p := nofun
  cases o with
  | acquire lk =>
    obtain ⟨-, rfl⟩ := acquire_done done
    exact family_still cpus family here frame mine rfl rfl rfl
  | release lk =>
    obtain rfl := release_done done
    exact family_still cpus family here frame mine rfl rfl (child_book _ _ _ _ _ _ nofun nofun nofun nofun)
  | pick q =>
    obtain ⟨-, rfl, rfl⟩ | ⟨rfl, rfl⟩ := test_done done
    · exact family_slot cpus family here frame mine rfl rfl nofun nofun nofun rfl
    · exact family_still cpus family here frame mine rfl rfl rfl
  | wakeIf q w =>
    cases done
    exact family_wakeIf cpus family here w frame mine rfl
  | setProc q =>
    cases done
    exact family_still cpus family here frame mine rfl rfl (child_book _ _ _ _ _ _ nofun nofun nofun nofun)
  | save | loadProc q | woke w =>
    cases done
    exact family_still cpus family here frame mine rfl rfl rfl
  | _ => cases ok

theorem family_proc (here : s.cur c = .proc p)
    (ok : allowsProc E init p (l (.proc p)) o) (done : nextProc init c p o s = some (a, s')) :
    Family init s' (update l (.proc p) (book E init (some p) (l (.proc p)) o a)) := by
  have frame : Frame s s' (l (.proc p)) := op_frame (E := E) cpus family here ok done
  have known := family.known p
  have told := known_step cpus family here ok done
  have mine : ∀ r, (.proc p : Thread n m) = .proc r → Known s' (book E init (some p) (l (.proc p)) o a) r := by
    intro r same
    rw [← Thread.proc.inj same]
    exact told
  cases o with
  | acquire lk =>
    obtain ⟨-, rfl⟩ := acquire_done done
    exact family_still cpus family here frame mine rfl rfl rfl
  | release lk | sleepRelease w lk =>
    obtain rfl := release_done done
    exact family_still cpus family here frame mine rfl rfl (child_book _ _ _ _ _ _ nofun nofun nofun nofun)
  | schedCheck =>
    obtain ⟨-, rfl⟩ := check_done done
    exact family_still cpus family here frame mine rfl rfl rfl
  | checkInit =>
    obtain ⟨-, rfl⟩ := refuse_done done
    exact family_still cpus family here frame mine rfl rfl rfl
  | goSleep w | giveUp =>
    cases done
    exact family_slot cpus family here frame mine rfl rfl nofun nofun nofun rfl
  | setZombie status =>
    cases done
    exact family_slot cpus family here frame mine rfl rfl nofun nofun (fun _ => .inr ok.2.1) rfl
  | clearChan =>
    cases done
    exact family_slot cpus family here frame mine rfl rfl id id .inl rfl
  | wakeIf q w =>
    cases done
    exact family_wakeIf cpus family here w frame mine rfl
  | killIf q pid =>
    obtain ⟨-, -, rfl⟩ | ⟨-, rfl⟩ := test_done done
    · exact family_slot cpus family here frame mine rfl rfl (of_kill nofun) (of_kill nofun)
        (fun now => .inl (of_kill nofun now)) rfl
    · exact family_still cpus family here frame mine rfl rfl rfl
  | setUsed q pid =>
    obtain ⟨other, vacant, -, spare⟩ := ok
    have unused := (known.vacant q vacant).2.2
    cases done
    have orphan := family.orphan q unused
    refine family_change cpus family here frame mine (fun r apart => update_of_ne apart _ _) (fun _ _ => rfl) ?_
      (fun _ => .inr unused) (fun _ => orphan) ?_ (fun same => family.alive.1 (same ▸ unused)) (family.self q)
    · intro r apart
      rw [spare]
      exact ⟨fun now => absurd (Option.some.inj now).symm apart, nofun⟩
    · exact fun p' _ of => nomatch orphan.symm.trans of
  | freeproc q =>
    obtain ⟨-, other, child, fresh⟩ := ok
    obtain ⟨-, used, parent, -⟩ := known.child q child
    cases done
    have none : (s.freeproc q).parent q = none := update_self q _ _
    refine family_change cpus family here frame mine (fun r apart => update_of_ne apart _ _)
      (fun r apart => update_of_ne apart _ _) ?_ nofun (fun _ => none) ?_ (fun same => family.alive.2.1 (same ▸ used))
      (by rw [none]; nofun)
    · intro r apart
      rw [child]
      exact ⟨nofun, fun now => absurd (Option.some.inj now).symm apart⟩
    · exact fun p' _ of => nomatch none.symm.trans of
  | setRunnable q =>
    obtain ⟨-, other, child, -⟩ := ok
    obtain ⟨-, used, -⟩ := known.child q child
    cases done
    have ready : ((s.setState q .runnable).slot q).state = .runnable :=
      (congrArg Slot.state (update_self q _ s.slot)).trans rfl
    refine family_change cpus family here frame mine (fun r apart => update_of_ne apart _ _) (fun _ _ => rfl) ?_
      nofun ?_ ?_ (fun same => family.alive.2.1 (same ▸ used)) (family.self q)
    · intro r apart
      rw [child]
      exact ⟨nofun, fun now => absurd (Option.some.inj now).symm apart⟩
    · exact fun now => nomatch ready.symm.trans now
    · exact fun p' now => nomatch ready.symm.trans now
  | adopt q =>
    obtain ⟨-, other, child, -⟩ := ok
    obtain ⟨-, used, -⟩ := known.child q child
    cases done
    have made : update s.parent q (some p) q = some p := update_self q _ _
    refine family_change cpus family here frame mine (fun _ _ => rfl) (fun r apart => update_of_ne apart _ _) ?_
      (fun _ => .inl child) (fun now => nomatch used.symm.trans now) ?_
      (fun same => family.alive.2.1 (same ▸ used)) ?_
    · intro r apart
      rw [child]
      exact Iff.rfl
    · exact fun p' _ of => ⟨(Option.some.inj (made.symm.trans of)).symm, rfl⟩
    · exact fun of => other (Option.some.inj (made.symm.trans of)).symm
  | passOn q =>
    obtain ⟨-, -, -, kid, spare⟩ := ok
    have of := (known.kid q kid).2
    cases done
    have given : update s.parent q (some init) q = some init := update_self q _ _
    have root : init ≠ q := by
      rintro rfl
      cases family.root.symm.trans of
    have child : (book E init (some p) (l (.proc p)) (.passOn q) ()).know.child = (l (.proc p)).know.child :=
      child_book E init (some p) (l (.proc p)) (.passOn q) () nofun nofun nofun nofun
    refine family_change cpus family here frame mine (fun _ _ => rfl) (fun r apart => update_of_ne apart _ _) ?_ ?_
      (fun now => nomatch (family.orphan q now).symm.trans of) ?_ root
      (fun of' => root (Option.some.inj (given.symm.trans of')))
    · intro r _
      rw [child]
    · exact fun now => .inl (child.symm.trans now)
    · exact fun p' now _ => absurd (family.maker q p now of) spare
  | reap q addr =>
    obtain ⟨other, -, -, pid, found⟩ := ok
    obtain ⟨-, -, -, dead, -, of⟩ := known.found q pid found
    cases done
    have none : (s.freeproc q).parent q = none := update_self q _ _
    exact family_change cpus family here frame mine (fun r apart => update_of_ne apart _ _)
      (fun r apart => update_of_ne apart _ _) (fun _ _ => Iff.rfl) .inl (fun _ => none)
      (fun p' _ of' => nomatch none.symm.trans of') (fun same => family.alive.2.2 (same ▸ dead))
      fun of' => nomatch none.symm.trans of'
  | isUnused q | zombie q | parent q | get | put x y | stamp f y | takePid | waitReturn r | save | loadSched | killed
  | pid | woke w | clearThread q | copyout q addr | youAThread =>
    cases done
    exact family_still cpus family here frame mine rfl rfl (child_book _ _ _ _ _ _ nofun nofun nofun nofun)
  | never => cases done
  | pick q | setProc q | loadProc q => cases ok

theorem family_step (here : s.cur c = t) (ok : allows E init t o (l t))
    (done : next init c t o s = some (a, s')) : Family init s' (update l t (book E init t.me (l t) o a)) := by
  cases t with
  | sched d => exact family_sched cpus family here ok done
  | proc p => exact family_proc cpus family here ok done

end

end

end Xv6Kern
