import Xv6.KernelSpecs

/- exit and wait, with their ledgers. -/
namespace Xv6Kern
open Threads Prog Xv6Proc Finset

section
variable {n m : Nat} {X Y W : Type} [DecidableEq W] {E : Ext n X Y W} {init : Fin n} {calm : Chan n W → Prop}
  {l : Ledger n X Y W} {p : Fin n} {note : Y}

/-- The only wakeup that may be owed is init's, and it has been given. -/
def InitTold (init p : Fin n) (l : Ledger n X Y W) : Prop :=
  ∀ w, l.dirty w → w = .proc init ∧ ∀ q, q ≠ p → l.awake .wait (.proc init) q

theorem wp_wakeup_scan {A : Type} {f : Unit → P n X Y W A} {post : A → Ledger n X Y W → Prop}
    {w : Option (Chan n W)} {procs : List (Fin n)} (scanning : Scanning note l) (all : ∀ q, q ∈ procs)
    (next : ∀ k, Scanning note k → After l k → (∀ v, w = some v → ∀ q, q ≠ p → k.awake .wait v q) →
      procWp m E init calm p (f ()) k post) : procWp m E init calm p (wakeup (some p) w procs >>= f) l post := by
  have able : Able (.proc p : Thread n m) l := ⟨scanning.mode, scanning.bed⟩
  refine wp_seq (wakeup_spec rfl w procs able ?_ (scanning_blank scanning) fun q missing => absurd (all q) missing) ?_
  · intro q _
    rw [scanning.locks]
    simp
  rintro _ k ⟨after, told⟩
  apply next k (scanning_after scanning after) after
  intro v named q other
  refine told q (fun same => other (Option.some.inj same)) .wait ?_ v named
  rw [scanning.locks]
  exact mem_singleton_self _

theorem reparent_spec (root : p ≠ init) (procs rest : List (Fin n)) (all : ∀ q, q ∈ procs)
    (scanning : Scanning note l) (announced : InitTold init p l) (past : ∀ q, q ∉ rest → l.know.strange q) :
    procWp m E init calm p (reparent init p procs rest) l fun _ k =>
      Scanning note k ∧ InitTold init p k ∧ ∀ q, k.know.strange q := by
  induction rest generalizing l with
  | nil => exact wp_pure ⟨scanning, announced, fun q => past q List.not_mem_nil⟩
  | cons q rest ih =>
    apply wp_parent scanning
    intro a k other scanning' dirty awake leaving quiet strange kid alone par
    have announced' : InitTold init p k := by
      intro w owes
      rw [dirty] at owes
      rw [awake]
      exact announced w owes
    by_cases of : a = some p
    · rw [if_pos of]
      have child : k.know.child ≠ some q := by
        rw [scanning'.know]
        nofun
      have wait : .wait ∈ k.locks := sole_lock scanning'.locks
      refine wp_op ⟨root, scanning'.mode, wait, kid of, child⟩ fun _ _ => ?_
      have passed : Scanning note (book E init (some p) k (.passOn q) ()) := by
        refine ⟨scanning'.locks, scanning'.mode, scanning'.bed, scanning'.view, scanning'.note, ?_⟩
        change (((k.know.setKid none).setFound none).setStrange _).setLeaving true = _
        rw [scanning'.know]
        rfl
      apply wp_wakeup_scan passed all
      intro j scanning'' after told
      refine ih scanning'' ?_ ?_
      · intro w owes
        rw [after.dirty] at owes
        rcases owes with prev | same
        · exact ⟨(announced' w prev).1, told _ rfl⟩
        · exact ⟨same, told _ rfl⟩
      intro r missing
      rw [after.know]
      by_cases same : r = q
      · exact .inr same
      refine .inl (strange r (past r ?_))
      exact fun mem => (List.mem_cons.mp mem).elim same missing
    rw [if_neg of]
    apply ih scanning' announced'
    intro r missing
    by_cases same : r = q
    · rw [same]
      exact (alone of).2
    refine strange r (past r ?_)
    exact fun mem => (List.mem_cons.mp mem).elim same missing

/-- The ledger of a process that waits in swtch for its slot to be used again. -/
structure Gone (p : Fin n) (note : Y) (k : Ledger n X Y W) : Prop where
  locks : k.locks = {.proc p}
  mode : k.mode = .away
  bed : k.bed = none
  dirty : ∀ w, ¬ k.dirty w
  view : k.view = none
  note : k.note = note
  know : k.know = Know.nothing

omit [DecidableEq W] in
theorem scanning_start (home : Home note l) : Scanning note (l.setLocks (insert .wait l.locks)) := by
  refine ⟨?_, home.mode, home.bed, home.view, home.note, ?_⟩
  · change insert Lk.wait l.locks = {.wait}
    rw [home.locks]
    rfl
  change l.know = scanKnow l.know.par l.know.quiet l.know.strange l.know.kid l.know.leaving
  rw [home.know]
  rfl

theorem exit_spec (home : Home note l) (quits : E.quits note) (status : Int32) (procs : List (Fin n))
    (all : ∀ q, q ∈ procs) : procWp m E init calm p (exit init p status procs) l fun _ k => Gone p note k := by
  refine wp_op trivial fun _ fits => ?_
  have root : p ≠ init := fun same => fits (congrArg some same)
  have free : .wait ∉ l.locks := by
    rw [home.locks]
    exact notMem_empty _
  refine wp_acquire ⟨home.mode, home.bed⟩ free ?_
  have first : InitTold init p (l.setLocks (insert Lk.wait l.locks)) := fun w owes => absurd owes (home.dirty w)
  refine wp_seq (reparent_spec root procs procs all (scanning_start home) first
    fun q missing => absurd (all q) missing) ?_
  rintro _ k ⟨scanning, told, strange⟩
  refine wp_parent scanning ?_
  intro a j _ scanning' dirty awake leaving quiet strange' kid alone par
  refine wp_wakeup_scan scanning' all ?_
  intro i scanning'' after woken
  -- the parent has been woken, all children are init's; only the state is left to change
  have owes : ∀ w, i.dirty w → w = .proc init ∧ ∀ q, q ≠ p → i.awake .wait (.proc init) q := by
    intro w owes
    rw [after.dirty, dirty] at owes
    obtain ⟨same, given⟩ := told w owes
    refine ⟨same, fun q other => after.awake .wait ?_ _ q ?_⟩
    · rw [scanning'.locks]
      exact mem_singleton_self _
    rw [awake]
    exact given q other
  have alone' : ∀ q, i.know.strange q := by
    intro q
    rw [after.know]
    exact strange' q (strange q)
  have parent : i.know.par = some a := by
    rw [after.know]
    exact par rfl
  have wait : .wait ∈ i.locks := sole_lock scanning''.locks
  have know := scanning''.know
  refine wp_acquire ⟨scanning''.mode, scanning''.bed⟩ (by simp [scanning''.locks]) ?_
  refine wp_op ⟨?_, root, scanning''.mode, scanning''.bed, mem_insert_self _ _,
    mem_insert_of_mem wait, ?_, ?_, ?_, ?_, alone', a, parent, ?_⟩ fun _ _ => ?_
  · exact (show i.note = note from scanning''.note) ▸ quits
  · exact congrArg Know.child know
  · exact congrArg Know.newpid know
  · exact congrArg Know.owed know
  · exact congrArg Know.found know
  · intro r of q other
    exact woken (.proc r) (by rw [of]; rfl) q other
  have settled : Settled (some p) (book E init (some p) (i.setLocks (insert (.proc p) i.locks))
      (.setZombie status) ()) .wait := by
    intro w _ owed q other
    obtain ⟨rfl, given⟩ := owes w owed
    exact given q fun same => other (congrArg some same)
  refine wp_op ⟨mem_insert_of_mem wait, settled, fun _ => rfl, nofun⟩ fun _ _ => ?_
  have left : (insert (Lk.proc p) i.locks).erase .wait = {.proc p} := by
    rw [scanning''.locks, erase_insert_of_ne (show Lk.proc p ≠ .wait from nofun)]
    simp
  refine wp_last (wp_sched rfl left ?_)
  refine wp_pure ⟨left, rfl, scanning''.bed, ?_, ?_, scanning''.note, ?_⟩
  · rintro w ⟨other, owed⟩
    obtain ⟨rfl, -⟩ := owes w owed
    exact other rfl
  · exact scanning''.view
  change (((((i.know.setLeaving false).setPar none).setQuiet fun _ => False).setStrange
    fun _ => False).setKid none).setFound none = Know.nothing
  rw [know]
  rfl

structure Looking (note : Y) (k : Ledger n X Y W) : Prop where
  scanning : Scanning note k
  dirty : ∀ w, ¬ k.dirty w
  staying : k.know.leaving = false

structure Holding (p q : Fin n) (pid : Nat) (note : Y) (k : Ledger n X Y W) : Prop where
  other : q ≠ p
  locks : k.locks = {.proc q, .wait}
  mode : k.mode = .run
  bed : k.bed = none
  dirty : ∀ w, ¬ k.dirty w
  view : k.view = none
  note : k.note = note
  know : ∃ par quiet strange kid copied, k.know =
    ⟨none, none, none, false, par, quiet, strange, kid, some (q, pid), copied, false, none⟩

theorem wait_leave {q : Fin n} {r : Option Nat} (locks : l.locks = {.proc q, .wait})
    (mode : l.mode = .run) (bed : l.bed = none) (dirty : ∀ w, ¬ l.dirty w) (view : l.view = none)
    (same : l.note = note) (know : ∃ par quiet strange kid found copied,
      l.know = ⟨none, none, none, false, par, quiet, strange, kid, found, copied, false, r⟩) :
    procWp m E init calm p (do
        act (.release (.proc q))
        act (.release .wait)
        act (.waitReturn r)
        pure (none : Option Bool)) l fun a k => a = none ∧ Home note k := by
  obtain ⟨par, quiet, strange, kid, found, copied, know⟩ := know
  have able : Able (.proc p : Thread n m) l := ⟨mode, bed⟩
  have held : .proc q ∈ l.locks := by
    rw [locks]
    exact mem_insert_self _ _
  have left : l.locks.erase (.proc q) = {.wait} := by
    rw [locks, erase_insert (by simp)]
  have wait : .wait ∈ l.locks.erase (.proc q) := sole_lock left
  have staying : ((l.know.setVacant none).setFound none).leaving = false := congrArg Know.leaving know
  have owed : l.know.owed = r := congrArg Know.owed know
  apply wp_release_slot able held
  refine wp_release able wait (fun w _ owes => absurd owes.2 (dirty w)) (fun _ => staying) ?_
  refine wp_op owed fun _ _ => wp_pure ⟨rfl, ?_, mode, bed, ?_, ?_, same, ?_⟩
  · change (l.locks.erase (.proc q)).erase .wait = ∅
    rw [left]
    simp
  · exact fun w owes => dirty w owes.2.2
  · exact view
  change (((((((l.know.setVacant none).setFound none).setPar none).setQuiet fun _ => False).setStrange
    fun _ => False).setKid none).setFound none).setOwed none = Know.nothing
  rw [know]
  rfl

theorem wait_reap {q : Fin n} {pid : Nat} (holding : Holding p q pid note l) (addr : UInt64) (valid : Bool) :
    procWp m E init calm p (if addr ≠ 0 ∧ valid = false then do
          act (.release (.proc q))
          act (.release .wait)
          act (.waitReturn none)
          pure none
        else do
          if addr ≠ 0 then act (.copyout q addr) else pure ()
          act (.reap q addr)
          act (.release (.proc q))
          act (.release .wait)
          act (.waitReturn (some pid))
          pure (none : Option Bool)) l fun a k => a = none ∧ Home note k := by
  obtain ⟨other, locks, mode, bed, dirty, view, same, par, quiet, strange, kid, copied, know⟩ := holding
  split
  · exact wait_leave locks mode bed dirty view same ⟨par, quiet, strange, kid, _, copied, know⟩
  have found : l.know.found = some (q, pid) := congrArg Know.found know
  have owed : l.know.owed = none := congrArg Know.owed know
  by_cases set : addr ≠ 0
  · rw [if_pos set]
    refine wp_op ⟨pid, found⟩ fun _ _ => ?_
    refine wp_op ⟨other, owed, fun _ => rfl, pid, found⟩ fun _ _ => ?_
    refine wait_leave locks mode bed dirty view same ⟨par, quiet, strange, none, none, none, ?_⟩
    change ((((l.know.setCopied (some addr)).setFound none).setKid none).setOwed
      (l.know.found.map Prod.snd)) = _
    rw [know]
    rfl
  rw [if_neg set]
  refine wp_op ⟨other, owed, fun now => absurd now set, pid, found⟩ fun _ _ => ?_
  refine wait_leave locks mode bed dirty view same ⟨par, quiet, strange, none, none, none, ?_⟩
  change (((l.know.setFound none).setKid none).setOwed (l.know.found.map Prod.snd)) = _
  rw [know]
  rfl

theorem waitScan_spec (addr : UInt64) (valid havekids : Bool) (rest : List (Fin n)) (looking : Looking note l)
    (past : ∀ q, q ∉ rest → l.know.quiet q) :
    procWp m E init calm p (waitScan p addr valid havekids rest) l
      fun a k => match a with
        | none => Home note k
        | some _ => Looking note k ∧ ∀ q, k.know.quiet q := by
  induction rest generalizing l havekids with
  | nil => exact wp_pure ⟨looking, fun q => past q List.not_mem_nil⟩
  | cons q rest ih =>
    refine wp_parent looking.scanning ?_
    intro a k other scanning dirty awake leaving quiet strange kid alone par
    have looking' : Looking note k := ⟨scanning, by rw [dirty]; exact looking.dirty, leaving.trans looking.staying⟩
    by_cases of : a = some p
    · rw [if_pos of]
      have free : .proc q ∉ k.locks := by
        rw [scanning.locks]
        simp
      refine wp_acquire ⟨scanning.mode, scanning.bed⟩ free ?_
      have wait : .wait ∈ k.locks := sole_lock scanning.locks
      refine wp_op ⟨scanning.mode, mem_insert_self _ _, other of, mem_insert_of_mem wait, kid of⟩ ?_
      intro found _
      cases found with
      | some pid =>
        have holding : Holding p q pid note ((k.setLocks (insert (.proc q) k.locks)).setKnow
            (k.know.setFound (some (q, pid)))) := by
          refine ⟨other of, ?_, scanning.mode, scanning.bed, looking'.dirty, scanning.view, scanning.note,
            k.know.par, k.know.quiet, k.know.strange, k.know.kid, none, ?_⟩
          · change insert (Lk.proc q) k.locks = _
            rw [scanning.locks]
          change k.know.setFound (some (q, pid)) = _
          rw [scanning.know, looking'.staying]
          rfl
        refine wp_mono (wait_reap holding addr valid) ?_
        rintro a j ⟨rfl, home⟩
        exact home
      | none =>
        have visit : Scanning note (((k.setLocks (insert (.proc q) k.locks)).setKnow
            (k.know.setQuiet fun r => k.know.quiet r ∨ r = q)).drop (.proc q)) := by
          refine ⟨?_, scanning.mode, scanning.bed, scanning.view, scanning.note, ?_⟩
          · change (insert (.proc q) k.locks).erase (.proc q) = {.wait}
            rw [erase_insert free]
            exact scanning.locks
          change ((k.know.setQuiet fun r => k.know.quiet r ∨ r = q).setVacant none).setFound none = _
          rw [scanning.know]
          rfl
        refine wp_release_slot ⟨scanning.mode, scanning.bed⟩ (mem_insert_self _ _) ?_
        refine ih true ⟨visit, fun w owes => looking'.dirty w owes.2, looking'.staying⟩ ?_
        intro r missing
        by_cases same : r = q
        · exact .inr same
        refine .inl (quiet r (past r ?_))
        exact fun mem => (List.mem_cons.mp mem).elim same missing
    rw [if_neg of]
    refine ih havekids looking' ?_
    intro r missing
    by_cases same : r = q
    · rw [same]
      exact (alone of).1
    refine quiet r (past r ?_)
    exact fun mem => (List.mem_cons.mp mem).elim same missing

omit [DecidableEq W] in
theorem looking_slept {k : Ledger n X Y W} (looking : Looking note l) (slept : Slept .wait l k) : Looking note k := by
  have know : k.know = Know.nothing := by
    rw [slept.know]
    change ((((l.know.setPar none).setQuiet fun _ => False).setStrange fun _ => False).setKid none).setFound
      none = Know.nothing
    rw [looking.scanning.know, looking.staying]
    rfl
  refine ⟨⟨slept.locks, slept.mode, slept.bed, slept.view.trans looking.scanning.view,
    slept.note.trans looking.scanning.note, ?_⟩, ?_, ?_⟩
  · rw [know]
    rfl
  · rw [slept.dirty]
    exact fun w owes => looking.dirty w owes.2
  rw [know]
  rfl

theorem waitLoop_spec (addr : UInt64) (valid : Bool) (procs : List (Fin n)) (all : ∀ q, q ∈ procs) (turns : Nat)
    (looking : Looking note l) :
    procWp m E init calm p (waitLoop p addr valid procs turns) l fun _ k => Home note k := by
  induction turns generalizing l with
  | zero => exact wp_perform trivial fun _ never => absurd never id
  | succ turns ih =>
    refine wp_seq (waitScan_spec addr valid false procs looking fun q missing => absurd (all q) missing) ?_
    intro a k res
    cases a with
    | none => exact wp_pure res
    | some havekids =>
      obtain ⟨looking', quiet⟩ := res
      have scanning := looking'.scanning
      have able : Able (.proc p : Thread n m) k := ⟨scanning.mode, scanning.bed⟩
      have wait : .wait ∈ k.locks := sole_lock scanning.locks
      have settled : Settled (some p) k .wait := fun w _ owes => absurd owes (looking'.dirty w)
      refine wp_op trivial fun killed _ => wp_op trivial fun thread _ => ?_
      by_cases leaves : (!havekids || killed) && !thread
      · rw [if_pos leaves]
        refine wp_release able wait settled (fun _ => looking'.staying) ?_
        have owed : k.know.owed = none := congrArg Know.owed scanning.know
        refine wp_last (wp_op owed fun _ _ => wp_pure ⟨?_, scanning.mode, scanning.bed, ?_, scanning.view,
          scanning.note, ?_⟩)
        · change k.locks.erase .wait = ∅
          rw [scanning.locks]
          simp
        · exact fun w owes => looking'.dirty w owes.2
        change (((((k.know.setPar none).setQuiet fun _ => False).setStrange fun _ => False).setKid
          none).setFound none).setOwed none = Know.nothing
        rw [scanning.know, looking'.staying]
        rfl
      rw [if_neg leaves]
      refine wp_sleep able scanning.locks nofun settled (.inr rfl) (fun _ => looking'.staying) ⟨rfl, quiet⟩
        (scanning_blank scanning) ?_
      exact fun j slept => ih (looking_slept looking' slept)

theorem wait_spec (home : Home note l) (addr : UInt64) (valid : Bool) (turns : Nat) (procs : List (Fin n))
    (all : ∀ q, q ∈ procs) : procWp m E init calm p (wait p addr valid turns procs) l fun _ k => Home note k := by
  have free : .wait ∉ l.locks := by
    rw [home.locks]
    exact notMem_empty _
  refine wp_acquire ⟨home.mode, home.bed⟩ free ?_
  refine waitLoop_spec addr valid procs all turns ⟨scanning_start home, home.dirty, ?_⟩
  exact congrArg Know.leaving home.know

end

end Xv6Kern
