import Xv6.Scheduler
import Xv6.Lib.Runs

/- Which spinlocks the process operations hold when they return. -/
namespace Xv6Proc
open LockProg Prog Xv6 Xv6Spinlock

/-- The locks that are taken last: nothing is acquired under them. -/
def Lock.leaf : Lock → Bool
  | .pid | .kmem | .ftable | .itable | .pr => true
  | _ => false

/-- Locks under which a leaf lock may be taken. -/
structure Under (held : Finset Lock) (n : Nat) : Prop where
  depth : held.card ≤ n
  leaf : ∀ l ∈ held, l.leaf = false

def NoProc (held : Finset Lock) : Prop := ∀ p, Lock.proc p ∉ held

theorem Under.free {held : Finset Lock} {n : Nat} (under : Under held n) {l : Lock}
    (leaf : l.leaf = true) : l ∉ held := by
  intro mem
  have := under.leaf l mem
  simp_all

theorem Under.insert {held : Finset Lock} {n : Nat} (under : Under held n) {l : Lock}
    (inner : l.leaf = false) : Under (insert l held) (n + 1) where
  depth := (Finset.card_insert_le l held).trans (Nat.succ_le_succ under.depth)
  leaf := by
    intro k mem
    rcases Finset.mem_insert.mp mem with same | mem
    · rw [same]
      exact inner
    · exact under.leaf k mem

section
variable {own : Lock} {asm : Assumed} {held : Finset Lock} {n : Nat}

theorem keeps_myproc (p : ProcId) (depth : held.card ≤ n) : Keeps own asm (myproc p) held n :=
  ⟨by omega, rfl, rfl⟩

theorem keeps_putAll (cs : List Char) (depth : held.card ≤ n) : Keeps own asm (putAll cs) held n := by
  induction cs with
  | nil => exact ⟨rfl, rfl⟩
  | cons c cs ih =>
    have one : Keeps own asm uartputcSync held n := ⟨by omega, rfl, rfl⟩
    exact keeps_then one fun _ => ih

theorem keeps_setProc (p : ProcId) (f : Proc → Proc) : Keeps own asm (setProc p f) held n :=
  fun _ => ⟨rfl, rfl⟩

theorem keeps_choice (what : String) : Keeps own asm (choice what : K Nat) held n :=
  fun _ _ => ⟨rfl, rfl⟩

theorem keeps_peek : Keeps own asm (peek : K Table) held n := fun _ => ⟨rfl, rfl⟩

theorem keeps_onlyIf {b : Bool} {x : K Unit} (keeps : Keeps own asm x held n) : Keeps own asm (onlyIf b x) held n :=
  wp_onlyIf keeps ⟨rfl, rfl⟩

section
variable (under : Under held n)
include under

theorem keeps_printf (text : String) : Keeps own asm (printf text) held n := by
  have free : Lock.pr ∉ held := under.free rfl
  apply acquire_then free under.depth
  have depth : (insert Lock.pr held).card ≤ n + 1 :=
    (Finset.card_insert_le _ _).trans (Nat.succ_le_succ under.depth)
  apply keeps_then (keeps_putAll _ depth)
  intro _
  exact wp_release free under.depth ⟨rfl, rfl⟩

theorem wp_kalloc : wp own asm kalloc held n (fun r h m => asm.allowed "kalloc" r ∧ h = held ∧ m = n) := by
  have free : Lock.kmem ∉ held := under.free rfl
  apply acquire_then free under.depth
  intro r allowed
  exact release_then free under.depth ⟨allowed, rfl, rfl⟩

theorem keeps_kfree : Keeps own asm kfree held n := keeps_pair (under.free rfl) under.depth

theorem keeps_filedup : Keeps own asm filedup held n := keeps_pair (under.free rfl) under.depth

theorem keeps_idup : Keeps own asm idup held n := keeps_pair (under.free rfl) under.depth

theorem keeps_kmemRounds (rounds : Nat) : Keeps own asm (kmemRounds rounds) held n := by
  induction rounds with
  | zero => exact ⟨rfl, rfl⟩
  | succ rounds ih => exact keeps_then (keeps_kfree under) fun _ => ih

theorem wp_procPagetable : wp own asm procPagetable held n
    (fun r h m => asm.allowed "proc_pagetable" r ∧ h = held ∧ m = n) := by
  apply keeps_then (keeps_choice _)
  intro rounds
  apply keeps_then (keeps_kmemRounds under rounds)
  intro _ r allowed
  exact ⟨allowed, rfl, rfl⟩

theorem keeps_procFreepagetable : Keeps own asm procFreepagetable held n :=
  keeps_then (keeps_choice _) fun rounds => keeps_kmemRounds under rounds

theorem keeps_uvmcopy : Keeps own asm uvmcopy held n := by
  apply keeps_then (keeps_choice _)
  intro rounds
  apply keeps_then (keeps_kmemRounds under rounds)
  intro _
  exact keeps_then (keeps_choice _) fun r => ⟨rfl, rfl⟩

theorem keeps_allocpid : Keeps own asm allocpid held n := by
  have free : Lock.pid ∉ held := under.free rfl
  apply acquire_then free under.depth
  apply keeps_then keeps_peek
  intro t
  have bump : Keeps own asm (update fun t => { t with nextpid := t.nextpid + 1 } : K Unit)
      (insert .pid held) (n + 1) := fun _ => ⟨rfl, rfl⟩
  apply keeps_then bump
  intro _
  exact release_then free under.depth ⟨rfl, rfl⟩

theorem keeps_freeproc (p : ProcId) : Keeps own asm (freeproc p) held n := by
  apply keeps_then keeps_peek
  intro t
  apply keeps_then (keeps_onlyIf (keeps_kfree under))
  intro _
  apply keeps_then (keeps_setProc _ _)
  intro _
  apply keeps_then (keeps_onlyIf (keeps_procFreepagetable under))
  intro _
  exact keeps_setProc _ _

theorem keeps_dupFiles (p np : ProcId) (fds : List (Fin nofile)) :
    Keeps own asm (dupFiles p np fds) held n := by
  induction fds with
  | nil => exact ⟨rfl, rfl⟩
  | cons i fds ih =>
    apply keeps_then keeps_peek
    intro t
    have one : Keeps own asm (do
        filedup
        setProc np fun q => { q with
          ofile := Function.update q.ofile i ((t.proc p).ofile i) }) held n :=
      keeps_then (keeps_filedup under) fun _ => keeps_setProc _ _
    exact keeps_then (keeps_onlyIf one) fun _ => ih

/-- allocproc returns with the new process's lock, or as it was called. -/
def Allocated (held : Finset Lock) (n : Nat) (r : Option ProcId) (h : Finset Lock) (m : Nat) :
    Prop :=
  match r with
  | none => h = held ∧ m = n
  | some p => h = insert (.proc p) held ∧ m = n + 1

/-- What decides whether a free slot is taken: its two pages. -/
def Paged (asm : Assumed) (r : Option ProcId) : Prop :=
  match r with
  | none => asm.allowed "kalloc" 0 ∨ asm.allowed "proc_pagetable" 0
  | some _ => (∃ i, i ≠ 0 ∧ asm.allowed "kalloc" i) ∧ ∃ i, i ≠ 0 ∧ asm.allowed "proc_pagetable" i

theorem freeproc_release {A : Type} (p : ProcId) (free : Lock.proc p ∉ held) {f : Unit → K A}
    {post : A → Finset Lock → Nat → Prop} (next : wp own asm (f ()) held n post) :
    wp own asm (do freeproc p; release (.proc p); f ()) (insert (.proc p) held) (n + 1) post :=
  keeps_then (keeps_freeproc (under.insert rfl) p) fun _ => release_then free under.depth next

theorem wp_allocprocFound (p : ProcId) (free : Lock.proc p ∉ held) :
    wp own asm (allocprocFound p) (insert (.proc p) held) (n + 1)
      (fun r h m => Allocated held n r h m ∧ Paged asm r) := by
  have inner : Under (insert (.proc p) held) (n + 1) := under.insert rfl
  apply keeps_then (keeps_allocpid inner)
  intro pid
  apply keeps_then (keeps_setProc _ _)
  intro _
  apply wp_seq (wp_kalloc inner)
  rintro frame _ _ ⟨framed, rfl, rfl⟩
  split
  · rename_i zero
    apply keeps_then (keeps_setProc _ _)
    intro _
    exact freeproc_release (f := fun _ => pure none) under p free ⟨⟨rfl, rfl⟩, .inl (zero ▸ framed)⟩
  rename_i page
  apply keeps_then (keeps_setProc _ _)
  intro _
  apply wp_seq (wp_procPagetable inner)
  rintro pagetable _ _ ⟨mapped, rfl, rfl⟩
  split
  · rename_i zero
    apply keeps_then (keeps_setProc _ _)
    intro _
    exact freeproc_release (f := fun _ => pure none) under p free ⟨⟨rfl, rfl⟩, .inr (zero ▸ mapped)⟩
  rename_i table
  apply keeps_then (keeps_setProc _ _)
  intro _
  exact ⟨⟨rfl, rfl⟩, ⟨frame, page, framed⟩, ⟨pagetable, table, mapped⟩⟩

theorem wp_allocproc (ps : List ProcId) (noProc : NoProc held) :
    wp own asm (allocproc ps) held n (Allocated held n) := by
  induction ps with
  | nil => exact ⟨rfl, rfl⟩
  | cons p ps ih =>
    apply acquire_then (noProc p) under.depth
    apply keeps_then keeps_peek
    intro t
    split
    · exact wp_mono (fun _ _ _ both => both.1) (wp_allocprocFound under p (noProc p))
    · exact release_then (noProc p) under.depth ih

theorem keeps_fork (p : ProcId) (noProc : NoProc held) (noWait : Lock.wait ∉ held) : Keeps own asm (fork p) held n := by
  apply keeps_then (keeps_myproc p under.depth)
  intro p
  apply wp_seq (wp_allocproc under procs noProc)
  intro r h m allocated
  cases r with
  | none => exact allocated
  | some np =>
    obtain ⟨rfl, rfl⟩ := allocated
    have inner : Under (insert (.proc np) held) (n + 1) := under.insert rfl
    apply keeps_then (keeps_uvmcopy inner)
    intro copied
    split
    · exact freeproc_release (f := fun _ => pure (-1)) under np (noProc np) ⟨rfl, rfl⟩
    apply keeps_then keeps_peek
    intro t
    apply keeps_then (keeps_setProc _ _)
    intro _
    apply keeps_then (keeps_dupFiles inner _ _ _)
    intro _
    apply keeps_then (keeps_idup inner)
    intro _
    apply keeps_then (keeps_setProc _ _)
    intro _
    apply keeps_then keeps_peek
    intro t
    apply release_then (noProc np) under.depth
    -- the child's lock is dropped before wait_lock is taken, and taken again after
    apply acquire_then noWait under.depth
    apply keeps_then (keeps_setProc _ _)
    intro _
    apply release_then noWait under.depth
    apply acquire_then (noProc np) under.depth
    apply keeps_then (keeps_setProc _ _)
    intro _
    exact release_then (noProc np) under.depth ⟨rfl, rfl⟩

theorem keeps_cloneFound (p np : ProcId) (stack : UInt64) (size : Int32) :
    Keeps own asm (cloneFound p np stack size) held n := by
  apply keeps_then keeps_peek
  intro t
  apply keeps_then (keeps_onlyIf (keeps_setProc _ _))
  intro _
  apply keeps_then keeps_peek
  intro t
  apply keeps_then (keeps_setProc _ _)
  intro _
  apply keeps_then (keeps_dupFiles under _ _ _)
  intro _
  apply keeps_then (keeps_idup under)
  intro _
  apply keeps_then (keeps_setProc _ _)
  intro _
  apply keeps_then keeps_peek
  intro t
  apply keeps_then (keeps_setProc _ _)
  intro _
  exact keeps_then (keeps_printf under _) fun _ => ⟨rfl, rfl⟩

theorem wp_clone (p : ProcId) (stack : UInt64) (size : Int32) (noProc : NoProc held)
    {post : Int32 → Finset Lock → Nat → Prop} (none : post (-1) held n)
    (found : ∀ r np, ¬ asm.avoid "clone" → post r (insert (.proc np) held) (n + 1)) :
    wp own asm (clone p stack size) held n post := by
  apply keeps_then (keeps_printf under _)
  intro _
  apply keeps_then (keeps_myproc p under.depth)
  intro p
  apply wp_seq (wp_allocproc under procs noProc)
  intro r h m allocated
  cases r with
  | none =>
    obtain ⟨rfl, rfl⟩ := allocated
    exact none
  | some np =>
    obtain ⟨rfl, rfl⟩ := allocated
    intro passes
    apply wp_mono _ (keeps_cloneFound (under.insert rfl) p np stack size)
    intro r h m same
    rw [same.1, same.2]
    exact found r np passes

end

section
variable (depth : held.card ≤ n) (noProc : NoProc held)
include depth noProc

theorem keeps_wakeup (p : Option ProcId) (chan : Option Chan) (ps : List ProcId) :
    Keeps own asm (wakeup p chan ps) held n := by
  induction ps with
  | nil => exact ⟨rfl, rfl⟩
  | cons q ps ih =>
    have here : Keeps own asm (pushOff (popOff (pure ())) : K Unit) held n :=
      ⟨by omega, rfl, rfl⟩
    apply keeps_then here
    intro _
    have one : Keeps own asm (do
        acquire (.proc q)
        let t ← peek
        onlyIf ((t.proc q).state = .sleeping ∧ (t.proc q).chan = chan)
          (setProc q fun r => { r with state := .runnable })
        release (.proc q)) held n := by
      apply acquire_then (noProc q) depth
      apply keeps_then keeps_peek
      intro t
      apply keeps_then (keeps_onlyIf (keeps_setProc _ _))
      intro _
      exact wp_release (noProc q) depth ⟨rfl, rfl⟩
    exact keeps_then (keeps_onlyIf one) fun _ => ih

theorem keeps_kill (pid : Int32) (ps : List ProcId) : Keeps own asm (kill pid ps) held n := by
  induction ps with
  | nil => exact ⟨rfl, rfl⟩
  | cons p ps ih =>
    apply acquire_then (noProc p) depth
    apply keeps_then keeps_peek
    intro t
    split
    · apply keeps_then (keeps_setProc _ _)
      intro _
      exact release_then (noProc p) depth ⟨rfl, rfl⟩
    · exact release_then (noProc p) depth ih

theorem keeps_reparent (p : ProcId) (ps : List ProcId) : Keeps own asm (reparent p ps) held n := by
  induction ps with
  | nil => exact ⟨rfl, rfl⟩
  | cons pp ps ih =>
    apply keeps_then keeps_peek
    intro t
    have one : Keeps own asm (do
        setProc pp fun q => { q with parent := some t.initproc }
        wakeup (some p) (some (.proc t.initproc)) procs) held n :=
      keeps_then (keeps_setProc _ _) fun _ => keeps_wakeup depth noProc _ _ _
    exact keeps_then (keeps_onlyIf one) fun _ => ih

end

theorem noProc_empty : NoProc ∅ := by simp [NoProc]

theorem noProc_single {lk : Lock} (other : ∀ p, lk ≠ .proc p) : NoProc {lk} := by
  intro p mem
  exact other p (Finset.mem_singleton.mp mem).symm

theorem myproc_then {A : Type} {p : ProcId} {f : ProcId → K A} {post : A → Finset Lock → Nat → Prop}
    (depth : held.card ≤ n) (next : wp own asm (f p) held n post) : wp own asm (myproc p >>= f) held n post :=
  ⟨by omega, next⟩

/- The operations that switch away do so with their own lock alone. -/
theorem sched_then {A : Type} {f : Unit → K A} {post : A → Finset Lock → Nat → Prop}
    (next : wp own asm (f ()) (insert own ∅) 1 post) : wp own asm (sched (pure ()) >>= f) (insert own ∅) 1 post :=
  ⟨rfl, rfl, next⟩

theorem keeps_yield (p : ProcId) : Keeps (.proc p) asm (yield p) ∅ 0 := by
  have free : Lock.proc p ∉ (∅ : Finset Lock) := by simp
  apply myproc_then (by simp)
  apply acquire_then free (by simp)
  apply keeps_then (keeps_setProc _ _)
  intro _
  apply sched_then
  exact wp_release free (by simp) ⟨rfl, rfl⟩

theorem swap_pair (k l : Lock) : insert k ({l} : Finset Lock) = insert l (insert k ∅) := by
  ext
  simp [or_comm]

theorem keeps_sleep (p : ProcId) (chan : Chan) {lk : Lock} (other : lk ≠ .proc p) :
    Keeps (.proc p) asm (sleep p chan lk) {lk} 1 := by
  have free : Lock.proc p ∉ ({lk} : Finset Lock) := by simpa using other.symm
  have empty : ∀ l : Lock, l ∉ (∅ : Finset Lock) := by simp
  have outer : lk ∉ insert (Lock.proc p) (∅ : Finset Lock) := by simpa using other
  apply myproc_then (by simp)
  apply acquire_then free (by simp)
  -- both locks are held here, and the caller's goes first
  rw [swap_pair]
  apply release_then outer (by simp)
  apply keeps_then (keeps_setProc _ _)
  intro _
  apply sched_then
  apply keeps_then (keeps_setProc _ _)
  intro _
  apply release_then (empty _) (by simp)
  exact ⟨empty _, by simp, rfl, rfl⟩

/-- A scan of wait returns with wait_lock when it found nothing to return. -/
def Scanned (r : Int32 ⊕ Bool) (h : Finset Lock) (m : Nat) : Prop :=
  match r with
  | .inl _ => h = ∅ ∧ m = 0
  | .inr _ => h = {Lock.wait} ∧ m = 1

theorem under_wait : Under {Lock.wait} 1 where
  depth := by simp
  leaf := by simp [Lock.leaf]

theorem wp_waitScan (p : ProcId) (addr : UInt64) (havekids : Bool) (ps : List ProcId) :
    wp own asm (waitScan p addr havekids ps) {Lock.wait} 1 Scanned := by
  have free : ∀ np, Lock.proc np ∉ ({Lock.wait} : Finset Lock) := by simp
  have empty : Lock.wait ∉ (∅ : Finset Lock) := by simp
  induction ps generalizing havekids with
  | nil => exact ⟨rfl, rfl⟩
  | cons np ps ih =>
    apply keeps_then keeps_peek
    intro t
    split
    · apply acquire_then (free np) (by simp)
      apply keeps_then keeps_peek
      intro t
      split
      · apply keeps_then (keeps_choice _)
        intro copied
        split
        · apply release_then (free np) (by simp)
          exact release_then empty (by simp) ⟨rfl, rfl⟩
        apply keeps_then (keeps_freeproc (under_wait.insert rfl) np)
        intro _
        apply release_then (free np) (by simp)
        exact release_then empty (by simp) ⟨rfl, rfl⟩
      · exact release_then (free np) (by simp) (ih true)
    · exact ih havekids

theorem wp_waitLoop (p : ProcId) (addr : UInt64) (turns : Nat) :
    wp (.proc p) asm (waitLoop p addr turns) {Lock.wait} 1 (fun _ h m => h = ∅ ∧ m = 0) := by
  induction turns with
  | zero => trivial
  | succ turns ih =>
    apply wp_seq (wp_waitScan p addr false procs)
    intro r h m scanned
    cases r with
    | inl res => exact scanned
    | inr havekids =>
      obtain ⟨rfl, rfl⟩ := scanned
      apply keeps_then keeps_peek
      intro t
      split
      · have empty : Lock.wait ∉ (∅ : Finset Lock) := by simp
        exact release_then empty (by simp) ⟨rfl, rfl⟩
      · exact keeps_then (keeps_sleep p _ (by simp)) fun _ => ih

theorem keeps_wait (p : ProcId) (addr : UInt64) (turns : Nat) : Keeps (.proc p) asm (wait p addr turns) ∅ 0 := by
  apply myproc_then (by simp)
  exact acquire_then (by simp) (by simp) (wp_waitLoop p addr turns)

theorem keeps_exit (p : ProcId) (status : Int32) : Keeps (.proc p) asm (exit p status) ∅ 0 := by
  have noProc : NoProc {Lock.wait} := noProc_single (by simp)
  have empty : ∀ l : Lock, l ∉ (∅ : Finset Lock) := by simp
  apply myproc_then (by simp)
  apply keeps_then keeps_peek
  intro t
  split
  · simp [wp, lockPanics]
  apply keeps_then (keeps_setProc _ _)
  intro _
  apply acquire_then (empty _) (by simp)
  apply keeps_then (keeps_reparent (by simp) noProc p _)
  intro _
  apply keeps_then keeps_peek
  intro t
  apply keeps_then (keeps_wakeup (by simp) noProc _ _ _)
  intro _
  apply acquire_then (by simp) (by simp)
  apply keeps_then (keeps_setProc _ _)
  intro _
  rw [swap_pair]
  apply release_then (by simp) (by simp)
  refine ⟨rfl, rfl, ?_⟩
  simp [wp, lockPanics]

end

end Xv6Proc
