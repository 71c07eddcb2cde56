import Xv6.KernelSound

/- What the code of kernel/proc.c does with its ledger. -/
namespace Xv6Kern
open Threads Prog Xv6Proc Finset

section
variable {n m : Nat} {X Y W : Type} {E : Ext n X Y W} {init : Fin n} {calm : Chan n W → Prop}
  {l : Ledger n X Y W} {t : Thread n m} {p : Fin n}
variable {q : Fin n} {A : Type} {post : A → Ledger n X Y W → Prop} {f : Unit → P n X Y W A}
  {k : Ledger n X Y W} {lk : Lk n}

def Able (t : Thread n m) (l : Ledger n X Y W) : Prop :=
  match t with
  | .proc _ => l.mode = .run ∧ l.bed = none
  | .sched _ => l.mode = .idle

def Blank (k : Know n) : Prop := k.vacant = none ∧ k.found = none ∧ k.copied = none

/-- Some wakeups were recorded, and all locks are as they were. -/
structure After (l k : Ledger n X Y W) : Prop where
  locks : k.locks = l.locks
  mode : k.mode = l.mode
  bed : k.bed = l.bed
  dirty : k.dirty = l.dirty
  view : k.view = l.view
  note : k.note = l.note
  know : k.know = l.know
  awake : ∀ lk ∈ l.locks, ∀ w q, l.awake lk w q → k.awake lk w q

theorem after_refl (l : Ledger n X Y W) : After l l :=
  ⟨rfl, rfl, rfl, rfl, rfl, rfl, rfl, fun _ _ _ _ => id⟩

theorem after_trans {l k j : Ledger n X Y W} (first : After l k) (snd : After k j) : After l j :=
  ⟨snd.locks.trans first.locks, snd.mode.trans first.mode, snd.bed.trans first.bed,
    snd.dirty.trans first.dirty, snd.view.trans first.view, snd.note.trans first.note,
    snd.know.trans first.know, fun lk holds w q told =>
      snd.awake lk (first.locks.symm ▸ holds) w q (first.awake lk holds w q told)⟩

theorem blank_slot {k : Know n} (blank : Blank k) : (k.setVacant none).setFound none = k := by
  obtain ⟨vacant, found, copied⟩ := blank
  simp only [Know.setVacant, Know.setFound]
  rw [← vacant, ← found, ← copied]

theorem after_slot (free : .proc q ∉ l.locks) (blank : Blank l.know)
    {awake : Lk n → Chan n W → Fin n → Prop} (grown : ∀ lk ∈ l.locks, ∀ w q, l.awake lk w q → awake lk w q) :
    After l (((l.setLocks (insert (.proc q) l.locks)).setAwake awake).drop (.proc q)) := by
  refine ⟨erase_insert free, rfl, rfl, ?_, rfl, rfl, ?_, ?_⟩
  · funext w
    refine propext ⟨And.right, fun owes => ⟨?_, owes⟩⟩
    exact fun guards => guardOf_ne guards q rfl
  · exact blank_slot blank
  intro lk holds w r told
  refine ⟨?_, grown lk holds w r told⟩
  rintro rfl
  exact free holds

theorem settled_slot (me : Option (Fin n)) (l : Ledger n X Y W) (q : Fin n) : Settled me l (.proc q) :=
  fun _ guards => absurd rfl (guardOf_ne guards q)

theorem after_able (after : After l k) (able : Able t l) : Able t k := by
  cases t with
  | sched d => exact after.mode.trans able
  | proc p => exact ⟨after.mode.trans able.1, after.bed.trans able.2⟩

theorem after_blank (after : After l k) (blank : Blank l.know) : Blank k.know := by
  rw [after.know]
  exact blank

theorem after_empty (empty : l.locks = ∅) (blank : Blank l.know) (locks : k.locks = {.proc q})
    (know : k.know = l.know) (bed : k.bed = l.bed) (dirty : k.dirty = l.dirty) (view : k.view = l.view)
    (note : k.note = l.note) : After l ((k.drop (.proc q)).setMode l.mode) := by
  refine ⟨?_, rfl, bed, ?_, view, note, ?_, ?_⟩
  · rw [empty]
    simp [Ledger.drop, Ledger.setMode, locks]
  · funext w
    refine propext ⟨fun owes => dirty ▸ owes.2, fun owes => ⟨?_, dirty.symm ▸ owes⟩⟩
    exact fun guards => guardOf_ne guards q rfl
  · simp only [Ledger.drop, Ledger.setMode, know]
    exact blank_slot blank
  rw [empty]
  intro lk holds
  cases holds

theorem blank_drop (blank : Blank l.know) (lk : Lk n) : Blank (l.drop lk).know := by
  cases lk with
  | proc q => exact ⟨rfl, rfl, rfl⟩
  | wait => exact ⟨blank.1, rfl, rfl⟩
  | pid | ext | other k => exact blank

theorem after_visit (free : .proc q ∉ l.locks) (blank : Blank l.know) :
    After l ((l.setLocks (insert (.proc q) l.locks)).drop (.proc q)) :=
  after_slot free blank fun _ _ _ _ => id

theorem drop_dirty (l : Ledger n X Y W) (wait : lk ≠ .wait) (ext : lk ≠ .ext) : (l.drop lk).dirty = l.dirty := by
  funext w
  refine propext ⟨And.right, fun owes => ⟨?_, owes⟩⟩
  intro guards
  cases w with
  | proc q => exact wait (Option.some.inj guards).symm
  | ext v => exact ext (Option.some.inj guards).symm
  | other k => cases guards

theorem drop_slot_dirty (l : Ledger n X Y W) (q : Fin n) : (l.drop (.proc q)).dirty = l.dirty :=
  drop_dirty l nofun nofun

theorem settled_of (me : Option (Fin n)) (l : Ledger n X Y W) (wait : lk ≠ .wait) (ext : lk ≠ .ext) :
    Settled me l lk := by
  intro w guards
  cases w with
  | proc q => exact absurd (Option.some.inj guards).symm wait
  | ext v => exact absurd (Option.some.inj guards).symm ext
  | other k => cases guards

variable [DecidableEq W]

theorem wp_acquire (able : Able t l) (free : lk ∉ l.locks)
    (next : wp (kernRules E init calm) t (f ()) (l.setLocks (insert lk l.locks)) post) :
    wp (kernRules E init calm) t (act (.acquire lk) >>= f) l post := by
  refine wp_op ?_ fun _ _ => next
  cases t with
  | sched d => exact ⟨free, able⟩
  | proc p => exact ⟨free, able.1, able.2⟩

theorem wp_release (able : Able t l) (held : lk ∈ l.locks) (settled : Settled t.me l lk)
    (stays : lk = .wait → l.know.leaving = false) (next : wp (kernRules E init calm) t (f ()) (l.drop lk) post) :
    wp (kernRules E init calm) t (act (.release lk) >>= f) l post := by
  refine wp_op ?_ fun _ _ => ?_
  · cases t with
    | sched d => exact ⟨held, able, settled⟩
    | proc p => exact ⟨held, settled, stays, fun _ => ⟨.inl able.1, able.2⟩⟩
  have after : book E init t.me l (.release lk) () = l.drop lk := by
    obtain ⟨mode, after, same | ⟨away, own, -⟩⟩ := book_release E init t.me l lk
    · rw [after, same]
      rfl
    cases t with
    | sched d => cases own
    | proc p => cases away.symm.trans able.1
  change wp _ t (f ()) (book E init t.me l (.release lk) ()) post
  rw [after]
  exact next

theorem wp_release_slot (able : Able t l) (held : .proc q ∈ l.locks)
    (next : wp (kernRules E init calm) t (f ()) (l.drop (.proc q)) post) :
    wp (kernRules E init calm) t (act (.release (.proc q)) >>= f) l post :=
  wp_release able held (settled_slot t.me l q) nofun next

theorem wp_wakeIf {w : Option (Chan n W)} (able : Able t l) (held : .proc q ∈ l.locks) (other : some q ≠ t.me)
    (next : wp (kernRules E init calm) t (f ()) (l.setAwake fun lk w' q' =>
      l.awake lk w' q' ∨ lk ∈ l.locks ∧ some w' = w ∧ q' = q) post) :
    wp (kernRules E init calm) t (act (.wakeIf q w) >>= f) l post := by
  refine wp_op ?_ fun _ _ => next
  cases t with
  | sched d => exact ⟨held, able⟩
  | proc p => exact ⟨held, fun same => other (congrArg some same)⟩

theorem wp_wake_slot {w : Option (Chan n W)} (able : Able t l) (free : .proc q ∉ l.locks) (other : some q ≠ t.me)
    (blank : Blank l.know) (next : ∀ k, After l k → (∀ lk ∈ l.locks, ∀ v, w = some v → k.awake lk v q) →
      wp (kernRules E init calm) t (f ()) k post) :
    wp (kernRules E init calm) t (act (.acquire (.proc q)) >>= fun _ => act (.wakeIf q w) >>= fun _ =>
      act (.release (.proc q)) >>= f) l post := by
  refine wp_acquire able free ?_
  refine wp_wakeIf able (mem_insert_self _ _) other ?_
  refine wp_release_slot able (mem_insert_self _ _) ?_
  refine next _ (after_slot free blank fun lk _ w' q' told => .inl told) ?_
  intro lk holds v named
  refine ⟨fun same => free (same ▸ holds), .inr ⟨mem_insert_of_mem holds, named.symm, rfl⟩⟩

theorem wakeup_spec {me : Option (Fin n)} (own : t.me = me) (w : Option (Chan n W)) (procs : List (Fin n))
    (able : Able t l) (free : ∀ q, some q ≠ me → .proc q ∉ l.locks) (blank : Blank l.know)
    (past : ∀ q, q ∉ procs → some q ≠ me → ∀ lk ∈ l.locks, ∀ v, w = some v → l.awake lk v q) :
    wp (kernRules E init calm) t (wakeup me w procs) l fun _ k => After l k ∧
      ∀ q, some q ≠ me → ∀ lk ∈ l.locks, ∀ v, w = some v → k.awake lk v q := by
  induction procs generalizing l with
  | nil =>
    refine wp_perform ?_ fun _ _ => ⟨after_refl l, fun q => past q List.not_mem_nil⟩
    cases t with
    | sched d => exact fun v named lk holds q => past q List.not_mem_nil (own ▸ nofun) lk holds v named
    | proc p =>
      refine ⟨able.1, fun v named lk holds q other => past q List.not_mem_nil ?_ lk holds v named⟩
      exact own ▸ fun same => other (Option.some.inj same)
  | cons q rest ih =>
    rw [wakeup]
    split
    · rename_i other
      apply wp_wake_slot able (free q other) (own ▸ other) blank
      intro k after told
      have held : ∀ lk, lk ∈ k.locks ↔ lk ∈ l.locks := fun lk => by rw [after.locks]
      refine wp_mono (ih (after_able after able) ?_ ?_ ?_) ?_
      · intro r apart holds
        exact free r apart ((held _).mp holds)
      · exact after_blank after blank
      · intro r missing apart lk holds v named
        by_cases same : r = q
        · rw [same]
          exact told lk ((held lk).mp holds) v named
        refine after.awake lk ((held lk).mp holds) v r (past r ?_ apart lk ((held lk).mp holds) v named)
        exact fun mem => (List.mem_cons.mp mem).elim same missing
      rintro _ j ⟨later, told'⟩
      exact ⟨after_trans after later, fun r apart lk holds => told' r apart lk ((held lk).mpr holds)⟩
    rename_i self
    apply ih able free blank
    intro r missing apart
    refine past r ?_ apart
    intro mem
    rcases List.mem_cons.mp mem with rfl | later
    · exact self apart
    · exact missing later

theorem wp_sched {st : ProcState} (stage : l.mode = .ready st) (locks : l.locks = {.proc p})
    (next : procWp m E init calm p (f ()) (l.setMode .away) post) : procWp m E init calm p (sched >>= f) l post := by
  have ok : (∃ st, l.mode = .ready st) ∧ l.locks = {.proc p} := ⟨⟨st, stage⟩, locks⟩
  refine wp_op ok fun _ _ => ?_
  refine wp_op ok fun _ _ => ?_
  exact wp_op ok fun _ _ => next

theorem wp_back (away : l.mode = .away) (held : .proc p ∈ l.locks) (up : l.bed = none)
    (next : procWp m E init calm p (f ()) ((l.drop (.proc p)).setMode .run) post) :
    procWp m E init calm p (act (.release (.proc p)) >>= f) l post := by
  refine wp_op ⟨held, settled_slot _ l p, nofun, fun _ => ⟨.inr away, up⟩⟩ fun _ _ => ?_
  have after : book E init (some p) l (.release (.proc p)) () = (l.drop (.proc p)).setMode .run := by
    simp [book, away]
  change wp _ _ (f ()) (book E init (some p) l (.release (.proc p)) ()) post
  rw [after]
  exact next

theorem yield_spec (able : Able (.proc p : Thread n m) l) (empty : l.locks = ∅) (blank : Blank l.know) :
    procWp m E init calm p (yield p) l fun _ k => After l k := by
  have locks : insert (.proc p) l.locks = {.proc p} := by
    rw [empty]
    rfl
  apply wp_acquire able (by simp [empty])
  refine wp_op ⟨able.1, mem_insert_self _ _, able.2⟩ fun _ _ => ?_
  apply wp_sched rfl locks
  refine wp_last (wp_back rfl (mem_insert_self _ _) able.2 ?_)
  have after := after_empty (q := p) (k := ((l.setLocks (insert (Lk.proc p) l.locks)).setMode
    (.ready .runnable)).setMode .away) empty blank locks rfl rfl rfl rfl rfl
  rw [able.1] at after
  exact after

/-- The ledger after a sleep: what goes with lk is forgotten. -/
structure Slept (lk : Lk n) (l k : Ledger n X Y W) : Prop where
  locks : k.locks = {lk}
  mode : k.mode = .run
  bed : k.bed = none
  dirty : k.dirty = (l.drop lk).dirty
  view : k.view = (l.drop lk).view
  note : k.note = l.note
  know : k.know = (l.drop lk).know

theorem wp_sleep {w : Chan n W} (able : Able (.proc p : Thread n m) l) (locks : l.locks = {lk})
    (slots : ∀ q, lk ≠ .proc q) (settled : Settled (some p) l lk) (guards : guardOf w = none ∨ guardOf w = some lk)
    (stays : lk = .wait → l.know.leaving = false) (waits : Waits E p l w) (blank : Blank l.know)
    (next : ∀ k, Slept lk l k → procWp m E init calm p (f ()) k post) :
    procWp m E init calm p (sleep p w lk >>= f) l post := by
  have other : lk ≠ .proc p := slots p
  have free : .proc p ∉ l.locks := by
    rw [locks]
    exact fun same => other (mem_singleton.mp same).symm
  have both : insert (.proc p) l.locks = {.proc p, lk} := by
    rw [locks]
  have left : ((insert (.proc p) l.locks).erase lk : Finset (Lk n)) = {.proc p} := by
    rw [both, erase_insert_of_ne other.symm]
    simp
  refine wp_acquire able free ?_
  refine wp_op ⟨able.1, able.2, mem_insert_self _ _, ?_, slots, settled, guards, stays, waits⟩ fun _ _ => ?_
  · exact mem_insert_of_mem (by rw [locks]; exact mem_singleton_self _)
  have mine : .proc p ∈ ((insert (.proc p) l.locks).erase lk : Finset (Lk n)) := sole_lock left
  refine wp_op ⟨able.1, mine, lk, rfl⟩ fun _ _ => ?_
  refine wp_sched rfl left ?_
  refine wp_op rfl fun _ _ => ?_
  refine wp_back rfl mine rfl ?_
  have none : ((insert (.proc p) l.locks).erase lk).erase (.proc p) = (∅ : Finset (Lk n)) := by
    rw [left]
    simp
  have gone : lk ∉ ((insert (.proc p) l.locks).erase lk).erase (.proc p) := by
    rw [none]
    exact notMem_empty lk
  refine wp_acquire ⟨rfl, rfl⟩ gone ?_
  refine next _ ⟨?_, rfl, rfl, ?_, ?_, rfl, ?_⟩
  · change insert lk (((insert (.proc p) l.locks).erase lk).erase (.proc p)) = {lk}
    rw [none]
    rfl
  · funext v
    refine propext ⟨And.right, fun owes => ⟨?_, owes⟩⟩
    exact fun guards => guardOf_ne guards p rfl
  · rfl
  · exact blank_slot (blank_drop blank lk)

theorem kill_spec (pid : Int) (procs : List (Fin n)) (able : Able (.proc p : Thread n m) l)
    (empty : l.locks = ∅) (blank : Blank l.know) : procWp m E init calm p (kill pid procs) l fun _ k => After l k := by
  induction procs generalizing l with
  | nil => exact wp_pure (after_refl l)
  | cons q rest ih =>
    have free : .proc q ∉ l.locks := by
      rw [empty]
      exact notMem_empty _
    have after := after_visit free blank
    refine wp_acquire able free ?_
    refine wp_op ⟨mem_insert_self _ _, fun _ => able⟩ ?_
    rintro (_ | _) -
    · refine wp_release_slot able (mem_insert_self _ _) ?_
      refine wp_mono (ih (after_able after able) (after.locks.trans empty) (after_blank after blank)) ?_
      exact fun _ k later => after_trans after later
    · exact wp_last (wp_release_slot able (mem_insert_self _ _) after)

theorem scheduler_spec {d : Fin m} (procs : List (Fin n)) (able : l.mode = .idle) (empty : l.locks = ∅)
    (blank : Blank l.know) : wp (kernRules E init calm) (.sched d) (scheduler procs) l fun _ k => After l k := by
  induction procs generalizing l with
  | nil => exact wp_pure (after_refl l)
  | cons q rest ih =>
    have free : .proc q ∉ l.locks := by
      rw [empty]
      exact notMem_empty _
    have locks : insert (.proc q) l.locks = {.proc q} := by
      rw [empty]
      rfl
    refine wp_acquire able free ?_
    refine wp_op ⟨able, locks⟩ ?_
    rintro (_ | _) -
    · have after := after_visit free blank
      refine wp_release_slot able (mem_insert_self _ _) ?_
      refine wp_mono (ih (after.mode.trans able) (after.locks.trans empty) (after_blank after blank)) ?_
      exact fun _ k later => after_trans after later
    refine wp_op rfl fun _ _ => ?_
    refine wp_op ⟨q, rfl⟩ fun _ _ => ?_
    refine wp_op rfl fun _ _ => ?_
    refine wp_op ⟨q, rfl⟩ fun _ _ => ?_
    refine wp_release_slot rfl (mem_insert_self _ _) ?_
    have after : After l ((((l.setLocks (insert (Lk.proc q) l.locks)).setMode .idle).drop (.proc q)).setMode
        l.mode) := after_empty empty blank locks rfl rfl rfl rfl rfl
    rw [able] at after
    refine wp_mono (ih rfl (after.locks.trans empty) (after_blank after blank)) ?_
    exact fun _ k later => after_trans after later

theorem forkret_spec (away : l.mode = .away) (locks : l.locks = {.proc p}) (up : l.bed = none) :
    procWp m E init calm p (forkret p) l fun _ k => k = (l.drop (.proc p)).setMode .run := by
  refine wp_last (wp_back away ?_ up rfl)
  rw [locks]
  exact mem_singleton_self _

structure Filling (p q : Fin n) (l k : Ledger n X Y W) : Prop where
  other : q ≠ p
  locks : k.locks = {.proc q}
  mode : k.mode = l.mode
  bed : k.bed = l.bed
  dirty : k.dirty = l.dirty
  view : k.view = l.view
  note : k.note = l.note
  know : k.know = Know.nothing.setChild (some q) false

section
variable (able : Able (.proc p : Thread n m) l) (empty : l.locks = ∅) (fresh : l.know = Know.nothing)
include able empty fresh

theorem wp_giveBack (filling : Filling p q l k) (next : ∀ j, After l j → procWp m E init calm p (f ()) j post) :
    procWp m E init calm p (act (.freeproc q) >>= fun _ => act (.release (.proc q)) >>= f) k post := by
  have held : .proc q ∈ k.locks := sole_lock filling.locks
  have child : k.know.child = some q ∧ k.know.adopted = false := by
    rw [filling.know]
    exact ⟨rfl, rfl⟩
  have able' : Able (.proc p : Thread n m) k := ⟨filling.mode.trans able.1, filling.bed.trans able.2⟩
  refine wp_op ⟨held, filling.other, child⟩ fun _ _ => ?_
  refine wp_release_slot able' held (next _ ⟨?_, filling.mode, filling.bed, ?_, filling.view, filling.note, ?_, ?_⟩)
  · change k.locks.erase (.proc q) = l.locks
    rw [filling.locks, empty]
    simp
  · exact (drop_slot_dirty k q).trans filling.dirty
  · change ((k.know.setChild none false).setVacant none).setFound none = l.know
    rw [filling.know, fresh]
    rfl
  rw [empty]
  intro lk holds
  cases holds

theorem filled_spec (filling : Filling p q l k) (frame table : Bool) :
    procWp m E init calm p (if frame && table then pure (some q) else do
        act (.freeproc q)
        act (.release (.proc q))
        pure none) k
      fun r k => match r with
        | none => After l k
        | some q' => Filling p q' l k := by
  split
  · exact wp_pure filling
  · exact wp_giveBack able empty fresh filling fun j after => wp_pure after

theorem allocprocFound_spec (other : q ≠ p) (frame table : Bool) :
    procWp m E init calm p (allocprocFound q frame table)
      ((l.setLocks (insert (.proc q) l.locks)).setKnow (l.know.setVacant (some q)))
      fun r k => match r with
        | none => After l k
        | some q' => Filling p q' l k := by
  obtain ⟨locks, mode, bed, awake, dirty, view, note, know⟩ := l
  obtain rfl : locks = ∅ := empty
  obtain rfl : know = Know.nothing := fresh
  refine wp_acquire able (by simp [Ledger.setKnow, Ledger.setLocks]) ?_
  refine wp_op ⟨able.1, mem_insert_self _ _, rfl⟩ fun pid _ => ?_
  refine wp_release able (mem_insert_self _ _) (settled_of _ _ nofun nofun) nofun ?_
  refine wp_op ⟨other, rfl, rfl, rfl⟩ fun _ _ => ?_
  refine filled_spec able rfl rfl ?_ frame table
  refine ⟨other, ?_, rfl, rfl, ?_, rfl, rfl, rfl⟩
  · change Finset.erase (insert Lk.pid (insert (Lk.proc q) ∅)) Lk.pid = {Lk.proc q}
    rw [erase_insert (by simp)]
    rfl
  · exact drop_dirty _ (show Lk.pid ≠ .wait from nofun) nofun

theorem allocproc_spec (frame table : Bool) (procs : List (Fin n)) :
    procWp m E init calm p (allocproc frame table procs) l
      fun r k => match r with
        | none => After l k
        | some q => Filling p q l k := by
  induction procs generalizing l with
  | nil => exact wp_pure (after_refl l)
  | cons q rest ih =>
    have free : .proc q ∉ l.locks := by
      rw [empty]
      exact notMem_empty _
    have blank : Blank l.know := by
      rw [fresh]
      exact ⟨rfl, rfl, rfl⟩
    refine wp_acquire able free ?_
    refine wp_op ⟨mem_insert_self _ _, able.1⟩ ?_
    rintro (_ | _) fits
    · have after := after_visit free blank
      refine wp_release_slot able (mem_insert_self _ _) ?_
      refine wp_mono (ih (after_able after able) (after.locks.trans empty) (after.know.trans fresh)) ?_
      intro r k later
      cases r with
      | none => exact after_trans after later
      | some q' =>
        exact ⟨later.other, later.locks, later.mode.trans after.mode, later.bed.trans after.bed,
          later.dirty.trans after.dirty, later.view.trans after.view, later.note.trans after.note, later.know⟩
    refine allocprocFound_spec able empty fresh ?_ frame table
    rintro rfl
    cases fits rfl

theorem start_spec (clean : ∀ w, ¬ l.dirty w) (filling : Filling p q l k) : procWp m E init calm p (do
        act (.clearThread q)
        act (.release (.proc q))
        act (.acquire .wait)
        act (.adopt q)
        act (.release .wait)
        act (.acquire (.proc q))
        act (.setRunnable q)
        act (.release (.proc q))) k fun _ k => After l k := by
  obtain ⟨other, locks, mode, bed, dirty, view, note, know⟩ := filling
  have able' : Able (.proc p : Thread n m) k := ⟨mode.trans able.1, bed.trans able.2⟩
  rw [← dirty] at clean
  obtain ⟨locks', mode', bed', awake', dirty', view', note', know'⟩ := k
  obtain rfl : know' = Know.nothing.setChild (some q) false := know
  obtain rfl : locks' = {.proc q} := locks
  have left : Finset.erase {Lk.proc q} (Lk.proc q) = ∅ := by simp
  have left' : Finset.erase (insert Lk.wait (Finset.erase {Lk.proc q} (Lk.proc q))) Lk.wait = ∅ := by simp
  refine wp_op rfl fun _ _ => ?_
  apply wp_release_slot able' (mem_singleton_self _)
  refine wp_acquire able' ?_ ?_
  · change Lk.wait ∉ Finset.erase {Lk.proc q} (Lk.proc q)
    rw [left]
    exact notMem_empty _
  refine wp_op ⟨mem_insert_self _ _, other, rfl, rfl⟩ fun _ _ => ?_
  refine wp_release able' (mem_insert_self _ _) (fun w _ owes => absurd owes.2 (clean w)) (fun _ => rfl) ?_
  refine wp_acquire able' ?_ ?_
  · change Lk.proc q ∉ Finset.erase (insert Lk.wait (Finset.erase {Lk.proc q} (Lk.proc q))) Lk.wait
    rw [left']
    exact notMem_empty _
  refine wp_op ⟨mem_insert_self _ _, other, rfl, rfl⟩ fun _ _ => ?_
  refine wp_last (wp_release_slot able' (mem_insert_self _ _) ?_)
  refine wp_pure ⟨?_, mode, bed, ?_, view, note, fresh.symm, ?_⟩
  · change Finset.erase (insert (Lk.proc q) (Finset.erase (insert Lk.wait
      (Finset.erase {Lk.proc q} (Lk.proc q))) Lk.wait)) (Lk.proc q) = l.locks
    rw [left', empty]
    simp
  · rw [← dirty]
    funext w
    exact propext ⟨fun owes => owes.2.2.2, fun owes => absurd owes (clean w)⟩
  rw [empty]
  intro lk holds
  cases holds

theorem fork_spec (clean : ∀ w, ¬ l.dirty w) (frame table copy : Bool) (procs : List (Fin n)) :
    procWp m E init calm p (fork frame table copy procs) l fun _ k => After l k := by
  apply wp_seq (allocproc_spec able empty fresh frame table procs)
  intro r k made
  cases r with
  | none => exact wp_pure made
  | some q =>
    cases copy with
    | false => exact wp_last (wp_giveBack able empty fresh made fun j after => wp_pure after)
    | true => exact wp_mono (start_spec able empty fresh clean made) fun _ _ after => after

end

/-- What a process knows while it goes over the table with wait_lock held. -/
def scanKnow (par : Option (Option (Fin n))) (quiet strange : Fin n → Prop) (kid : Option (Fin n))
    (leaving : Bool) : Know n :=
  ⟨none, none, none, false, par, quiet, strange, kid, none, none, leaving, none⟩

structure Scanning (note : Y) (k : Ledger n X Y W) : Prop where
  locks : k.locks = {.wait}
  mode : k.mode = .run
  bed : k.bed = none
  view : k.view = none
  note : k.note = note
  know : k.know = scanKnow k.know.par k.know.quiet k.know.strange k.know.kid k.know.leaving

structure Home (note : Y) (k : Ledger n X Y W) : Prop where
  locks : k.locks = ∅
  mode : k.mode = .run
  bed : k.bed = none
  dirty : ∀ w, ¬ k.dirty w
  view : k.view = none
  note : k.note = note
  know : k.know = Know.nothing

omit [DecidableEq W] in
theorem scanning_blank {note : Y} (scanning : Scanning note l) : Blank l.know := by
  rw [scanning.know]
  exact ⟨rfl, rfl, rfl⟩

omit [DecidableEq W] in
theorem scanning_after {note : Y} (scanning : Scanning note l) (after : After l k) : Scanning note k :=
  ⟨after.locks.trans scanning.locks, after.mode.trans scanning.mode, after.bed.trans scanning.bed,
    after.view.trans scanning.view, after.note.trans scanning.note, by rw [after.know]; exact scanning.know⟩

theorem wp_parent {note : Y} {f : Option (Fin n) → P n X Y W A} (scanning : Scanning note l)
    (next : ∀ a k, (a = some p → q ≠ p) → Scanning note k → k.dirty = l.dirty → k.awake = l.awake →
      k.know.leaving = l.know.leaving → (∀ r, l.know.quiet r → k.know.quiet r) →
      (∀ r, l.know.strange r → k.know.strange r) → (a = some p → k.know.kid = some q) →
      (a ≠ some p → k.know.quiet q ∧ k.know.strange q) → (q = p → k.know.par = some a) →
      procWp m E init calm p (f a) k post) : procWp m E init calm p (act (.parent q) >>= f) l post := by
  have wait : .wait ∈ l.locks := sole_lock scanning.locks
  refine wp_op wait fun a fits => ?_
  have other : a = some p → q ≠ p := fun of same => fits of (congrArg some same)
  obtain ⟨locks, mode, bed, view, same, know⟩ := scanning
  by_cases of : a = some p
  · have after : book E init (some p) l (.parent q) a = l.setKnow (l.know.setKid (some q)) := by
      simp only [book, if_pos of, if_neg fun eq => other of (Option.some.inj eq)]
    change wp _ _ (f a) (book E init (some p) l (.parent q) a) post
    rw [after]
    refine next a _ other ⟨locks, mode, bed, view, same, ?_⟩ rfl rfl rfl (fun _ => id) (fun _ => id)
      (fun _ => rfl) (fun no => absurd of no) (fun eq => absurd eq (other of))
    change l.know.setKid (some q) = _
    rw [know]
    rfl
  by_cases self : q = p
  · have after : book E init (some p) l (.parent q) a = l.setKnow ((((l.know.setPar (some a)).setKid
        none).setQuiet fun r => l.know.quiet r ∨ r = q).setStrange fun r => l.know.strange r ∨ r = q) := by
      simp only [book, if_neg of, if_pos (congrArg some self)]
      rfl
    change wp _ _ (f a) (book E init (some p) l (.parent q) a) post
    rw [after]
    refine next a _ other ⟨locks, mode, bed, view, same, ?_⟩ rfl rfl rfl (fun _ => .inl) (fun _ => .inl)
      (fun yes => absurd yes of) (fun _ => ⟨.inr rfl, .inr rfl⟩) (fun _ => rfl)
    simp only [Ledger.setKnow]
    rw [know]
    rfl
  have after : book E init (some p) l (.parent q) a = l.setKnow (((l.know.setKid
      none).setQuiet fun r => l.know.quiet r ∨ r = q).setStrange fun r => l.know.strange r ∨ r = q) := by
    simp only [book, if_neg of, if_neg fun eq => self (Option.some.inj eq)]
  change wp _ _ (f a) (book E init (some p) l (.parent q) a) post
  rw [after]
  refine next a _ other ⟨locks, mode, bed, view, same, ?_⟩ rfl rfl rfl (fun _ => .inl) (fun _ => .inl)
    (fun yes => absurd yes of) (fun _ => ⟨.inr rfl, .inr rfl⟩) (fun eq => absurd eq self)
  simp only [Ledger.setKnow]
  rw [know]
  rfl

end

end Xv6Kern
