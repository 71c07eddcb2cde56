import Xv6.ProcFields

/- Every physical page is free or has one owner among the processes and the kernel, as long as no
   clone succeeds. -/
namespace Xv6Table
open Outcome Xv6Vm Xv6 Runs
set_option linter.unusedSectionVars false

inductive Owner (n N : Nat) where
  | root (q : Fin n)
  | mid (q : Fin n) (k : Nat)
  | low (q : Fin n) (j : Nat)
  | user (q : Fin n) (v : Nat)
  | frame (q : Fin n)
  | kernel (pg : Fin N)

section
variable {n N : Nat}
variable {es : List (Event n)} {e : Event n} {junk : UInt64}

/-- The page of an owner: the nodes of a page table, the user pages below the trapframe, the trapframe, and
    the page tables and stacks of the kernel. -/
def Owner.page (kernel : List (Fin N)) (s : State n N) : Owner n N → Option (Fin N)
  | .root q => (s.proc q).pagetable
  | .mid q k => (s.proc q).pagetable.bind fun r => (s.vm.tables r).mid k
  | .low q j => (s.proc q).pagetable.bind fun r => (s.vm.tables r).low j
  | .user q v => if v < userTop then (s.proc q).pagetable.bind fun r => pageOf ((s.vm.tables r).leaf v) else none
  | .frame q => (s.proc q).trapframe
  | .kernel pg => if pg ∈ kernel then some pg else none

def Owner.At (s : State n N) : Owner n N → Place N (Holder n N) → Prop
  | .root q, .root r => (s.proc q).pagetable = some r
  | .mid q k, .mid r k' => (s.proc q).pagetable = some r ∧ k' = k
  | .low q j, .low r j' => (s.proc q).pagetable = some r ∧ j' = j
  | .user q v, .user r v' => (s.proc q).pagetable = some r ∧ v' = v
  | .frame q, .other (.frame q') => q' = q
  | .kernel pg, .other (.kept pg') => pg' = pg
  | _, _ => False

variable {kernel : List (Fin N)} {s s₀ t : State n N} {pg : Fin N} {o o' : Owner n N} {l : Place N (Holder n N)}

abbrev held (kernel : List (Fin N)) (s : State n N) : Place N (Holder n N) → Option (Fin N) :=
  own s.vm (live s.proc) (other s.proc fun pg => decide (pg ∈ kernel))

theorem process_of_node {r : Fin N} {x : Option (Fin N)} (has : (if live s.proc r = true then x else none) = some pg) :
    ∃ q, (s.proc q).pagetable = some r ∧ x = some pg := by
  by_cases lives : live s.proc r = true
  · obtain ⟨q, table⟩ := of_live lives
    exact ⟨q, table, (if_pos lives).symm.trans has⟩
  rw [if_neg lives] at has
  cases has

theorem owner_of_place (has : held kernel s l = some pg) : ∃ o : Owner n N, o.At s l ∧ o.page kernel s = some pg := by
  cases l with
  | root r =>
    obtain ⟨q, table, node⟩ := process_of_node has
    exact ⟨.root q, table, table.trans node⟩
  | mid r k =>
    obtain ⟨q, table, node⟩ := process_of_node has
    exact ⟨.mid q k, ⟨table, rfl⟩, by rw [Owner.page, table]; exact node⟩
  | low r j =>
    obtain ⟨q, table, node⟩ := process_of_node has
    exact ⟨.low q j, ⟨table, rfl⟩, by rw [Owner.page, table]; exact node⟩
  | user r v =>
    by_cases lives : live s.proc r = true ∧ v < userTop
    · obtain ⟨q, table⟩ := of_live lives.1
      rw [held, own, if_pos lives] at has
      exact ⟨.user q v, ⟨table, rfl⟩, by rw [Owner.page, if_pos lives.2, table]; exact has⟩
    rw [held, own, if_neg lives] at has
    cases has
  | other h =>
    cases h with
    | frame q => exact ⟨.frame q, rfl, has⟩
    | hand => cases has
    | kept pg' =>
      by_cases mem : pg' ∈ kernel
      · simp only [held, own, other, mem, decide_true, if_true] at has
        exact ⟨.kernel pg', rfl, by rw [Owner.page, if_pos mem]; exact has⟩
      · simp [held, own, other, mem] at has

theorem place_of_owner (has : o.page kernel s = some pg) : ∃ l, o.At s l ∧ held kernel s l = some pg := by
  cases o with
  | root q => exact ⟨.root pg, has, by rw [held, own, if_pos (live_of has)]⟩
  | mid q k =>
    obtain ⟨r, table, node⟩ := Option.bind_eq_some_iff.mp has
    exact ⟨.mid r k, ⟨table, rfl⟩, by rw [held, own, if_pos (live_of table)]; exact node⟩
  | low q j =>
    obtain ⟨r, table, node⟩ := Option.bind_eq_some_iff.mp has
    exact ⟨.low r j, ⟨table, rfl⟩, by rw [held, own, if_pos (live_of table)]; exact node⟩
  | user q v =>
    by_cases below : v < userTop
    · rw [Owner.page, if_pos below] at has
      obtain ⟨r, table, leaf⟩ := Option.bind_eq_some_iff.mp has
      exact ⟨.user r v, ⟨table, rfl⟩, by rw [held, own, if_pos ⟨live_of table, below⟩]; exact leaf⟩
    rw [Owner.page, if_neg below] at has
    cases has
  | frame q => exact ⟨.other (.frame q), rfl, has⟩
  | kernel pg' =>
    by_cases mem : pg' ∈ kernel
    · rw [Owner.page, if_pos mem] at has
      refine ⟨.other (.kept pg'), rfl, ?_⟩
      simp only [held, own, other, mem, decide_true, if_true]
      exact has
    rw [Owner.page, if_neg mem] at has
    cases has

theorem owner_unique (apart : Apart s.proc) (first : o.At s l) (snd : o'.At s l) : o = o' := by
  cases o <;> cases o' <;> cases l <;> simp only [Owner.At] at first snd
  case root.root.root q q' r => rw [apart q q' r first snd]
  case mid.mid.mid q k q' k' r j => rw [apart q q' r first.1 snd.1, ← first.2, ← snd.2]
  case low.low.low q k q' k' r j => rw [apart q q' r first.1 snd.1, ← first.2, ← snd.2]
  case user.user.user q k q' k' r j => rw [apart q q' r first.1 snd.1, ← first.2, ← snd.2]
  case frame.frame.other q q' h =>
    cases h with
    | frame q'' => rw [← show q'' = q from first, ← show q'' = q' from snd]
    | kept _ | hand => exact first.elim
  case kernel.kernel.other pg pg' h =>
    cases h with
    | kept pg'' => rw [← show pg'' = pg from first, ← show pg'' = pg' from snd]
    | frame _ | hand => exact first.elim
  case frame.kernel.other q pg h =>
    cases h with
    | frame q' => exact snd.elim
    | kept _ | hand => exact first.elim
  case kernel.frame.other pg q h =>
    cases h with
    | kept _ => exact snd.elim
    | frame _ | hand => exact first.elim

/-- Every page is free once or owned once, and user memory is what the sizes say. -/
structure Partition (kernel : List (Fin N)) (s : State n N) : Prop where
  free : ∀ pg, pg ∈ s.vm.freelist → s.vm.freelist.count pg = 1 ∧ ∀ o, Owner.page kernel s o ≠ some pg
  owned : ∀ pg, pg ∉ s.vm.freelist → ∃! o, Owner.page kernel s o = some pg
  extent : ∀ q, (s.proc q).state ≠ .unused → ∃ r, (s.proc q).pagetable = some r ∧
    ∀ v, v < userTop → ((s.vm.tables r).leaf v ≠ none ↔ v < pgroundup (s.proc q).sz / PGSIZE)
  once : s.vm.twice = false
  unshared : ∀ q q' v v' pg, Owner.page kernel s (.user q v) = some pg → Owner.page kernel s (.user q' v') = some pg →
    q = q' ∧ v = v'

abbrev Kept (kernel : List (Fin N)) : Fin N → Bool := fun pg => decide (pg ∈ kernel)

theorem owners_agree (inv : Inv (Kept kernel) s) (first : o.page kernel s = some pg)
    (snd : o'.page kernel s = some pg) : o = o' := by
  obtain ⟨l, at_l, has⟩ := place_of_owner first
  obtain ⟨l', at_l', has'⟩ := place_of_owner snd
  have same := inv.held.tracks.unique l l' pg has has'
  exact owner_unique inv.apart at_l (same ▸ at_l')

theorem used_owned (inv : Inv (Kept kernel) s) : pg ∉ s.vm.freelist ↔ ∃ o, Owner.page kernel s o = some pg := by
  have marked := inv.held.tracks.marked pg trivial
  rw [used, decide_eq_true_eq] at marked
  rw [marked]
  constructor
  · rintro ⟨l, has⟩
    obtain ⟨o, _, page⟩ := owner_of_place has
    exact ⟨o, page⟩
  rintro ⟨o, page⟩
  obtain ⟨l, _, has⟩ := place_of_owner page
  exact ⟨l, has⟩

theorem extent_of (inv : Inv (Kept kernel) s) {q : Fin n} (inUse : (s.proc q).state ≠ .unused) :
    ∃ r, (s.proc q).pagetable = some r ∧
      ∀ v, v < userTop → ((s.vm.tables r).leaf v ≠ none ↔ v < pgroundup (s.proc q).sz / PGSIZE) := by
  obtain ⟨r, f, table, _, image⟩ := inv_used inv inUse
  refine ⟨r, table, fun v below => ⟨fun present => ?_, fun low => ?_⟩⟩
  · by_contra high
    exact present (image.users.absent v (Nat.not_lt.mp high) below)
  obtain ⟨pg, perm, leaf⟩ := image.users.mapped v low
  rw [leaf]
  nofun

theorem partition_of (inv : Inv (Kept kernel) s) : Partition kernel s where
  free := by
    intro pg mem
    refine ⟨List.count_eq_one_of_mem inv.held.nodup mem, fun o has => ?_⟩
    exact (used_owned inv).mpr ⟨o, has⟩ mem
  owned := by
    intro pg missing
    obtain ⟨o, has⟩ := (used_owned inv).mp missing
    exact ⟨o, has, fun o' has' => owners_agree inv has' has⟩
  extent := fun q inUse => extent_of inv inUse
  once := inv.held.once
  unshared := by
    intro q q' v v' pg first snd
    have same := owners_agree inv first snd
    exact ⟨(Owner.user.inj same).1, (Owner.user.inj same).2⟩

/- Runs. -/

variable [NeZero n]

def NoClone (_ : State n N) (e : Event n) : Prop := ∀ junk, e.call ≠ .clone junk

def Threadless (s : State n N) (e : Event n) : Prop := e.call.threadless (s.setLuck e.luck)

theorem inv_luck {kept : Fin N → Bool} (inv : Inv kept s) (luck : List Bool) : Inv kept (s.setLuck luck) :=
  ⟨book_luck inv.held luck, inv.apart, fun q => slot_tables (inv.slot q) fun _ _ => rfl⟩

theorem step_ends (small : N ≤ 32768) (inv : Inv (Kept kernel) s)
    (able : e.call.able (s.proc e.p) = true) (threadless : Threadless s e) :
    Ends (e.call.code e.p) (s.setLuck e.luck) (fun _ t => Sound (Kept kernel) e.p e.call (s.setLuck e.luck) t)
      (· = "init exiting") :=
  call_spec (p := e.p) small (inv_luck inv e.luck) e.call able threadless

theorem step_sound (small : N ≤ 32768) (inv : Inv (Kept kernel) s) (threadless : Threadless s e)
    (step : next s e = some t) : Sound (Kept kernel) e.p e.call s t := by
  unfold next at step
  split at step
  case isFalse => cases step
  case isTrue able =>
  have ends := step_ends small inv able threadless
  split at step
  case h_2 => cases step
  case h_1 u res =>
  obtain rfl := Option.some.inj step
  obtain ⟨inv', keeps⟩ := ends_ok ends res
  refine ⟨inv', fun q prev after whose => ?_⟩
  have kept := keeps q prev after whose
  exact ⟨kept.table, kept.frame, kept.tables⟩

theorem run_inv (small : N ≤ 32768) (booted : Booted kernel s₀)
    (run : TableRun Threadless s₀ es s) : Inv (Kept kernel) s := by
  refine Runs.run_invariant (Inv (Kept kernel)) (booted_inv booted) ?_ run
  rintro s e t inv ⟨threadless, step⟩
  exact (step_sound small inv threadless step).1

theorem threadless_of (none : NoClone s e) : Threadless s e :=
  fun junk call => (none junk call).elim

theorem run_threadless (run : TableRun NoClone s₀ es s) : TableRun Threadless s₀ es s := by
  induction run with
  | nil => exact .nil
  | snoc prev last ih => exact .snoc ih ⟨threadless_of last.1, last.2⟩

/-- A step after s in which the processes of s do not exec or sbrk and none of them is reaped. -/
def Visit (s : State n N) (u : State n N) (e : Event n) (u' : State n N) : Prop :=
  NoClone u e ∧ ((s.proc e.p).state = .unused ∨ e.call.resizes = false) ∧ next u e = some u' ∧
    ∀ q, (s.proc q).state ≠ .unused → (u'.proc q).state ≠ .unused

theorem visit_keeps (small : N ≤ 32768) (inv : Inv (Kept kernel) s) (run : Run (Visit s) s es t) :
    Inv (Kept kernel) t ∧ (∀ q, (s.proc q).state ≠ .unused → (t.proc q).state ≠ .unused ∧ Keeps s t q) := by
  induction run with
  | nil => exact ⟨inv, fun q inUse => ⟨inUse, keeps_refl s q⟩⟩
  | @snoc es u u' e prev last ih =>
    obtain ⟨inv', old⟩ := ih
    obtain ⟨none, quiet, step, stays⟩ := last
    obtain ⟨inv'', keeps⟩ := step_sound small inv' (threadless_of none) step
    refine ⟨inv'', fun q inUse => ⟨stays q inUse, ?_⟩⟩
    obtain ⟨inUse', kept⟩ := old q inUse
    refine keeps_trans kept (keeps q inUse' (stays q inUse) ?_)
    rcases quiet with young | light
    · left
      rintro rfl
      exact inUse young
    · exact .inr light

theorem free_same (inv : Inv (Kept kernel) s) (inv' : Inv (Kept kernel) t)
    (inUse : ∀ q, (t.proc q).state = .unused ↔ (s.proc q).state = .unused)
    (keeps : ∀ q, (s.proc q).state ≠ .unused → Keeps s t q) : t.vm.freelist.length = s.vm.freelist.length := by
  have fields : ∀ q, (t.proc q).pagetable = (s.proc q).pagetable ∧ (t.proc q).trapframe = (s.proc q).trapframe := by
    intro q
    by_cases unused : (s.proc q).state = .unused
    · obtain ⟨noTable, noFrame, _⟩ := (inv.slot q).unused unused
      obtain ⟨noTable', noFrame', _⟩ := (inv'.slot q).unused ((inUse q).mpr unused)
      exact ⟨noTable'.trans noTable.symm, noFrame'.trans noFrame.symm⟩
    · exact ⟨(keeps q unused).table, (keeps q unused).frame⟩
  have tables : ∀ q r, (s.proc q).pagetable = some r → t.vm.tables r = s.vm.tables r := by
    intro q r table
    refine (keeps q fun unused => ?_).tables r table
    rw [((inv.slot q).unused unused).1] at table
    cases table
  have page : ∀ o, Owner.page kernel t o = Owner.page kernel s o := by
    intro o
    have nodes : ∀ q {A : Type} (f : Table N → Option A), ((t.proc q).pagetable.bind fun r => f (t.vm.tables r)) =
        (s.proc q).pagetable.bind fun r => f (s.vm.tables r) := by
      intro q A f
      rw [(fields q).1]
      cases table : (s.proc q).pagetable with
      | none => rfl
      | some r => rw [Option.bind_some, Option.bind_some, tables q r table]
    cases o with
    | root q => exact (fields q).1
    | mid q k => exact nodes q fun x => x.mid k
    | low q j => exact nodes q fun x => x.low j
    | user q v => rw [Owner.page, Owner.page, nodes q fun x => pageOf (x.leaf v)]
    | frame q => exact (fields q).2
    | kernel pg => rfl
  have members : ∀ pg, pg ∈ t.vm.freelist ↔ pg ∈ s.vm.freelist := by
    intro pg
    rw [← not_iff_not, used_owned inv', used_owned inv]
    simp only [page]
  exact ((List.perm_ext_iff_of_nodup inv'.held.nodup inv.held.nodup).mpr members).length_eq

theorem page_ownership (small : N ≤ 32768) (booted : Booted kernel s₀) {es : List (Event n)}
    (run : TableRun NoClone s₀ es s) : Partition kernel s ∧
      (∀ e, NoClone s e → e.call.able (s.proc e.p) = true →
        Ends (e.call.code e.p) (s.setLuck e.luck) (fun _ _ => True) (· = "init exiting")) ∧
      ∀ es' t, Run (Visit s) s es' t → (∀ q, (t.proc q).state = .unused ↔ (s.proc q).state = .unused) →
        t.vm.freelist.length = s.vm.freelist.length := by
  have inv := run_inv small booted (run_threadless run)
  refine ⟨partition_of inv, fun e none able => ?_, fun es' t visit same => ?_⟩
  · exact ends_better (step_ends small inv able (threadless_of none)) fun _ _ _ => trivial
  obtain ⟨inv', keeps⟩ := visit_keeps small inv visit
  exact free_same inv inv' same fun q inUse => (keeps q inUse).2

/- The address space of each process. -/

def Owner.slot : Owner n N → Option (Fin n)
  | .root q => some q
  | .mid q _ => some q
  | .low q _ => some q
  | .user q _ => some q
  | .frame q => some q
  | .kernel _ => none

/-- The page is the trapframe of the process, or is found from its page table. -/
def Reaches (s : State n N) (q : Fin n) (pg : Fin N) : Prop :=
  ∃ o : Owner n N, o.slot = some q ∧ o.page [] s = some pg

theorem page_kernel {q : Fin n} (slot : o.slot = some q) : o.page [] s = o.page kernel s := by
  cases o with
  | kernel pg => cases slot
  | root q | mid q k | low q j | user q v | frame q => rfl

/-- What a process can reach is not free, nothing is lost, and the sizes are those of the memory. -/
theorem address_spaces (small : N ≤ 32768) (booted : Booted kernel s₀) {es : List (Event n)}
    (run : TableRun Threadless s₀ es s) :
    (∀ q pg, (s.proc q).state ≠ .unused → Reaches s q pg → pg ∉ s.vm.freelist) ∧
    (∀ pg, pg ∉ s.vm.freelist → pg ∈ kernel ∨ ∃ q, Reaches s q pg) ∧
    ∀ q, (s.proc q).state ≠ .unused → ∃ r, (s.proc q).pagetable = some r ∧
      ∀ v, v < userTop → ((s.vm.tables r).leaf v ≠ none ↔ v < pgroundup (s.proc q).sz / PGSIZE) := by
  have inv := run_inv small booted run
  refine ⟨?_, ?_, fun q inUse => extent_of inv inUse⟩
  · rintro q pg _ ⟨o, slot, page⟩
    rw [page_kernel slot] at page
    exact (used_owned inv).mpr ⟨o, page⟩
  intro pg taken
  obtain ⟨o, page⟩ := (used_owned inv).mp taken
  cases slot : o.slot with
  | some q => exact Or.inr ⟨q, o, slot, by rw [page_kernel slot]; exact page⟩
  | none =>
    cases o with
    | kernel pg' =>
      by_cases member : pg' ∈ kernel
      · rw [Owner.page, if_pos member] at page
        exact Or.inl (Option.some.inj page ▸ member)
      rw [Owner.page, if_neg member] at page
      cases page
    | root q | mid q k | low q j | user q v | frame q => cases slot

/-- A process keeps its memory through whatever the others do, and through its own calls but exec and sbrk, and
    no other process gets at a page of it. -/
theorem memory_isolated (small : N ≤ 32768) (booted : Booted kernel s₀) {es es' : List (Event n)}
    (run : TableRun NoClone s₀ es s) {q : Fin n} (inUse : (s.proc q).state ≠ .unused)
    (later : Run (fun u e u' => NoClone u e ∧ (e.p = q → e.call.resizes = false) ∧ next u e = some u' ∧
      (u'.proc q).state ≠ .unused) s es' t) :
    Keeps s t q ∧ ∀ q' pg, Reaches t q pg → Reaches t q' pg → q' = q := by
  have kept : Inv (Kept kernel) t ∧ (t.proc q).state ≠ .unused ∧ Keeps s t q := by
    induction later with
    | nil => exact ⟨run_inv small booted (run_threadless run), inUse, keeps_refl s q⟩
    | @snoc es u u' e prev last ih =>
      obtain ⟨inv, used, kept⟩ := ih
      obtain ⟨none, own, step, stays⟩ := last
      obtain ⟨inv', keeps⟩ := step_sound small inv (threadless_of none) step
      refine ⟨inv', stays, keeps_trans kept (keeps q used stays ?_)⟩
      by_cases mine : e.p = q
      · exact .inr (own mine)
      · exact .inl fun same => mine same.symm
  refine ⟨kept.2.2, ?_⟩
  rintro q' pg ⟨o, slot, page⟩ ⟨o', slot', page'⟩
  rw [page_kernel slot] at page
  rw [page_kernel slot'] at page'
  obtain rfl := owners_agree kept.1 page page'
  exact Option.some.inj (slot'.symm.trans slot)

theorem cloned_memory (p : Fin n) (first parent x : Proc n N) (stack : UInt64) (size : Int32) :
    (Proc.cloned p first parent stack size x).pagetable = first.pagetable ∧
      (Proc.cloned p first parent stack size x).trapframe = x.trapframe := ⟨rfl, rfl⟩

theorem countThread_memory (x : Proc n N) : x.countThread.pagetable = x.pagetable ∧
    x.countThread.trapframe = x.trapframe := by
  unfold Proc.countThread
  split
  · exact ⟨rfl, rfl⟩
  · exact ⟨rfl, rfl⟩

theorem cloneFound_memory {p np : Fin n} {size pid : Int32}
    (done : cloneFound p np junk size s = .ok (pid, t)) : t.vm = s.vm ∧
      ∀ q, (t.proc q).pagetable = (s.proc (if q = np then 0 else q)).pagetable ∧
        (t.proc q).trapframe = (s.proc q).trapframe := by
  have counted : ∀ q, ((s.set p Proc.countThread).proc q).pagetable = (s.proc q).pagetable ∧
      ((s.set p Proc.countThread).proc q).trapframe = (s.proc q).trapframe := by
    intro q
    by_cases here : q = p
    · rw [here, set_proc_self]
      exact countThread_memory _
    rw [set_proc_other s _ here]
    exact ⟨rfl, rfl⟩
  obtain rfl : (s.set p Proc.countThread).set np _ = t := congrArg Prod.snd (Except.ok.inj done)
  refine ⟨rfl, fun q => ?_⟩
  by_cases child : q = np
  · rw [if_pos child, child, set_proc_self, (cloned_memory _ _ _ _ _ _).1, (cloned_memory _ _ _ _ _ _).2]
    exact ⟨(counted 0).1, (counted np).2⟩
  rw [if_neg child, set_proc_other _ _ child]
  exact counted q

theorem clone_leaks (inv : Inv (Kept kernel) s) {p : Fin n} {pid : Int32} (first : (s.proc 0).state ≠ .unused)
    (success : ∃ np t, allocproc (List.finRange n) s = .ok (some np, t)) (done : sysClone p junk s = .ok (pid, t)) :
    ∃ pg, pg ∉ t.vm.freelist ∧ pg ∉ kernel ∧ ∀ q, ¬ Reaches t q pg := by
  obtain ⟨np, u, allocated⟩ := success
  have spec : Ends (allocproc (List.finRange n)) s _ (fun _ => True) := allocproc_spec inv (List.finRange n)
  rcases ends_ok spec allocated with ⟨absurd, _⟩ | ⟨np', unused, inv', others, outcome⟩
  · cases absurd
  rcases outcome with ⟨absurd, _⟩ | ⟨found, state, _⟩
  · cases absurd
  obtain rfl : np = np' := Option.some.inj found
  obtain ⟨root, f, table, frame, _⟩ := inv_used (q := np) inv' (by rw [state]; nofun)
  have res : sysClone p junk s = cloneFound p np junk (a1 (s.proc p).regs).toUInt32.toInt32 u := by
    change (allocproc (List.finRange n) s >>= _) = _
    rw [allocated]
    rfl
  rw [res] at done
  obtain ⟨memory, fields⟩ := cloneFound_memory done
  have away : ∀ q, (if q = np then 0 else q) ≠ np := by
    intro q
    split
    · rintro rfl
      exact first unused
    · assumption
  have mine : ∀ o : Owner n N, o.page kernel u = some root → o = .root np :=
    fun o has => owners_agree inv' has table
  refine ⟨root, ?_, ?_, ?_⟩
  · rw [memory]
    exact (used_owned inv').mpr ⟨.root np, table⟩
  · intro mem
    have absurd := mine (.kernel root) (if_pos mem)
    cases absurd
  rintro q ⟨o, slot, page⟩
  cases o with
  | kernel pg => cases slot
  | root q =>
    have same := mine (.root _) ((fields q).1.symm.trans page)
    exact away q (Owner.root.inj same)
  | mid q k => nomatch mine (.mid _ k) (by rw [Owner.page, ← (fields q).1, ← memory]; exact page)
  | low q j => nomatch mine (.low _ j) (by rw [Owner.page, ← (fields q).1, ← memory]; exact page)
  | user q v => nomatch mine (.user _ v) (by rw [Owner.page, ← (fields q).1, ← memory]; exact page)
  | frame q => nomatch mine (.frame q) ((fields q).2.symm.trans page)

theorem clone_step {p : Fin n} {luck : List Bool} (step : next s ⟨p, .clone junk, luck⟩ = some t) :
    ∃ pid, sysClone p junk (s.setLuck luck) = .ok (pid, t) := by
  unfold next at step
  split at step
  case isFalse => cases step
  case isTrue =>
  split at step
  case h_2 => cases step
  case h_1 u res =>
  obtain rfl := Option.some.inj step
  change (sysClone p junk (s.setLuck luck) >>= fun pair => Except.ok ((), pair.2)) = _ at res
  cases done : sysClone p junk (s.setLuck luck) with
  | error msg =>
    rw [done] at res
    cases res
  | ok pair =>
    rw [done] at res
    cases res
    exact ⟨pair.1, rfl⟩

/- The return to user space. -/

/-- The address that usertrapret passes to userret: TRAPFRAME - PGSIZE * threadCount. -/
def trapframeVa (x : Proc n N) : UInt64 := UInt64.ofNat TRAPFRAME - (4096 * x.threadCount).toInt64.toUInt64

theorem threadless_count (booted : Booted kernel s₀) (run : TableRun Threadless s₀ es s) :
    ∀ q, (s.proc q).threadCount = 0 := by
  refine run_each (fun x => x.threadCount = 0) (fun q => ?_) ?_ run
  · rcases booted_fields booted q with zero | ⟨pid, frame, root, regs, made⟩
    · rw [zero]
      rfl
    rw [made]
    rfl
  intro s e threadless q y change zero
  cases change with
  | cloned unused call success first size pid frame root | counted running call success =>
    obtain ⟨np, t, made⟩ := success
    exact (threadless _ call np t made).elim
  | exits running nudged status | nudged nudged =>
    obtain ⟨parent, rfl | ⟨_, rfl⟩⟩ := nudged
    · exact zero
    · exact zero
  | forked unused call pid frame root => rfl
  | same | failed | memory | user | state | awake | asleep | reaped | killed => exact zero

/-- A process goes back to user mode through its own trapframe. -/
theorem own_trapframe (small : N ≤ 32768) (booted : Booted kernel s₀) {es : List (Event n)}
    (run : TableRun Threadless s₀ es s) (q : Fin n) (inUse : (s.proc q).state ≠ .unused) :
    ∃ r f perm, (s.proc q).pagetable = some r ∧ (s.proc q).trapframe = some f ∧
      (s.vm.tables r).leaf ((trapframeVa (s.proc q)).toNat / PGSIZE) = some ⟨.page f, perm⟩ := by
  have count := threadless_count booted run q
  obtain ⟨r, f, table, frame, image⟩ := inv_used (run_inv small booted run) inUse
  have page : (trapframeVa (s.proc q)).toNat / PGSIZE = userTop := by
    rw [trapframeVa, count]
    decide
  refine ⟨r, f, ⟨true, false, false⟩, table, frame, ?_⟩
  rw [page, image.top userTop (Nat.le_refl _), topLeaves, if_pos rfl]

/- Closed runs, on a machine of 64 pages of which the kernel has eight. -/

def Call.isClone : Call → Bool
  | .clone _ => true
  | _ => false

def cloneless (s : State n N) (e : Event n) : Option (State n N) := if e.call.isClone then none else next s e

theorem cloneless_step (s : State n N) (e : Event n) (t : State n N) (step : cloneless s e = some t) :
    Guarded (fun s e t => next s e = some t) NoClone s e t := by
  unfold cloneless at step
  split at step
  case isTrue => cases step
  case isFalse other =>
    refine ⟨fun junk call => other ?_, step⟩
    rw [call]
    rfl

end

def bootPages : State nproc 64 :=
  ⟨⟨(List.finRange 64).drop 8, fun _ => Table.empty, [], false⟩, fun _ => Proc.zero, 1⟩

def kernelPages : List (Fin 64) := (List.finRange 64).take 8

def bootState : State nproc 64 :=
  match userinit bootPages with
  | .ok (_, s) => s
  | .error _ => bootPages

theorem booted_bootState : Booted kernelPages bootState := by
  have fresh : Fresh kernelPages bootPages := ⟨rfl, rfl, by decide, by decide, by decide, rfl⟩
  have mapped : (match userinit bootPages with
    | .ok (ok, _) => ok
    | .error _ => false) = true := by decide +kernel
  refine ⟨bootPages, fresh, ?_⟩
  unfold bootState
  cases res : userinit bootPages with
  | error msg =>
    rw [res] at mapped
    cases mapped
  | ok pair =>
    rw [res] at mapped
    obtain ⟨ok, s⟩ := pair
    obtain rfl : ok = true := mapped
    rfl

def does (p : Fin nproc) (call : Call) : Event nproc := ⟨p, call, []⟩

def grandchild : List (Event nproc) :=
  [does 0 .fork, does 1 .schedule, does 1 .fork, does 1 (.exit 0), does 0 (.wait 0 true)]

/-- A child that forks before it exits leaves the pages of the grandchild behind. -/
theorem grandchild_keeps_pages : ∃ s t, Booted kernelPages bootState ∧
    TableRun NoClone bootState [does 0 .schedule] s ∧ TableRun NoClone s grandchild t ∧
    (s.proc 1).state = .unused ∧ (t.proc 1).state = .unused ∧ t.vm.freelist.length ≠ s.vm.freelist.length := by
  refine ⟨after cloneless bootState [does 0 .schedule],
    after cloneless (after cloneless bootState [does 0 .schedule]) grandchild, booted_bootState,
    run_after cloneless_step ?_, run_after cloneless_step ?_, ?_, ?_, ?_⟩
  all_goals decide +kernel

def visited : List (Event nproc) := [does 0 .schedule, does 0 .fork, does 1 .schedule, does 1 (.exit 3), does 0 (.wait 0 true)]

theorem page_ownership_reaped : Partition kernelPages (after cloneless bootState visited) := by
  have run : TableRun NoClone bootState visited (after cloneless bootState visited) :=
    run_after cloneless_step (by decide +kernel)
  exact (page_ownership (by decide) booted_bootState run).1

theorem address_spaces_forked : ∃ r, ((after cloneless bootState (visited.take 2)).proc 1).pagetable = some r := by
  have run : TableRun NoClone bootState (visited.take 2) (after cloneless bootState (visited.take 2)) :=
    run_after cloneless_step (by decide +kernel)
  have spaces := (address_spaces (by decide) booted_bootState (run_threadless run)).2.2 1 (by decide +kernel)
  obtain ⟨r, table, _⟩ := spaces
  exact ⟨r, table⟩

theorem own_trapframe_forked : ∃ r f perm, ((after cloneless bootState (visited.take 2)).proc 1).trapframe = some f ∧
    ((after cloneless bootState (visited.take 2)).vm.tables r).leaf userTop = some ⟨.page f, perm⟩ := by
  have run : TableRun NoClone bootState (visited.take 2) (after cloneless bootState (visited.take 2)) :=
    run_after cloneless_step (by decide +kernel)
  obtain ⟨r, f, perm, _, frame, leaf⟩ := own_trapframe (by decide) booted_bootState (run_threadless run) 1
    (by decide +kernel)
  exact ⟨r, f, perm, frame, leaf⟩

theorem memory_isolated_sbrk : ∃ t, next (after cloneless bootState (visited.take 2)) (does 0 (.sbrk 4096)) = some t ∧
    Keeps (after cloneless bootState (visited.take 2)) t 1 := by
  have run : TableRun NoClone bootState (visited.take 2) (after cloneless bootState (visited.take 2)) :=
    run_after cloneless_step (by decide +kernel)
  have grown : (next (after cloneless bootState (visited.take 2)) (does 0 (.sbrk 4096))).map
      (fun t => (t.proc 1).state) = some .runnable := by decide +kernel
  obtain ⟨t, step, state⟩ := Option.map_eq_some_iff.mp grown
  refine ⟨t, step, (memory_isolated (by decide) booted_bootState run (by decide +kernel)
    (.snoc .nil ⟨(fun _ same => by cases same), fun same => absurd same (by decide), step, ?_⟩)).1⟩
  rw [state]
  nofun

-- A child forked, run and reaped has given its pages back.
example : (after cloneless bootState [does 0 .schedule, does 0 .fork, does 1 .schedule, does 1 (.exit 3),
    does 0 (.wait 0 true)]).vm.freelist.length = (after cloneless bootState [does 0 .schedule]).vm.freelist.length := by
  decide +kernel

def threaded : List (Event nproc) := [does 0 .schedule, does 0 (.clone 0)]

theorem threaded_run : TableRun (fun _ _ => True) bootState threaded (after next bootState threaded) :=
  run_after (fun _ _ _ step => ⟨trivial, step⟩) (by decide +kernel)

/-- The page table that allocproc made for the thread is neither free nor anyone's. -/
theorem clone_strands_table : ∃ s, Booted kernelPages bootState ∧
    TableRun (fun _ _ => True) bootState threaded s ∧
    ∃ pg, pg ∉ s.vm.freelist ∧ pg ∉ kernelPages ∧ ∀ q, ¬ Reaches s q pg := by
  refine ⟨_, booted_bootState, threaded_run, ?_⟩
  have run : TableRun (fun _ _ => True) bootState (([] ++ [does 0 .schedule]) ++ [does 0 (.clone 0)])
      (after next bootState threaded) := threaded_run
  obtain ⟨s₁, before, _, step⟩ := run_snoc_inv run
  obtain ⟨s₀, empty, _, first⟩ := run_snoc_inv before
  obtain rfl := run_nil_state empty
  have other : NoClone bootState (does 0 .schedule) := fun junk (call : Call.schedule = .clone junk) => nomatch call
  have inv := (step_sound (by decide) (booted_inv booted_bootState) (threadless_of other) first).1
  obtain ⟨pid, done⟩ := clone_step step
  have facts : (next bootState (does 0 .schedule)).all (fun s => decide ((s.proc 0).state ≠ .unused) &&
      (allocproc (List.finRange nproc) (s.setLuck [])).toOption.any (·.1.isSome)) = true := by decide +kernel
  rw [first, Option.all_some, Bool.and_eq_true_iff] at facts
  refine clone_leaks (inv_luck inv []) (of_decide_eq_true facts.1) ?_ done
  cases made : allocproc (List.finRange nproc) (s₁.setLuck []) with
  | error e =>
    rw [made] at facts
    cases facts.2
  | ok r =>
    obtain ⟨found, t⟩ := r
    rw [made] at facts
    obtain ⟨np, rfl⟩ := Option.isSome_iff_exists.mp facts.2
    exact ⟨np, t, rfl⟩

/-- After clone the caller returns through an address that its page table does not map. -/
theorem clone_unmaps_trapframe : ∃ s r, Booted kernelPages bootState ∧ TableRun (fun _ _ => True) bootState threaded s ∧
    (s.proc 0).state = .running ∧ (s.proc 0).pagetable = some r ∧
    (s.vm.tables r).leaf ((trapframeVa (s.proc 0)).toNat / PGSIZE) = none := by
  have table : ((after next bootState threaded).proc 0).pagetable.isSome = true := by decide +kernel
  obtain ⟨r, found⟩ := Option.isSome_iff_exists.mp table
  have unmapped : ∀ r, ((after next bootState threaded).proc 0).pagetable = some r →
      ((after next bootState threaded).vm.tables r).leaf
        ((trapframeVa ((after next bootState threaded).proc 0)).toNat / PGSIZE) = none := by decide +kernel
  exact ⟨_, r, booted_bootState, threaded_run, by decide +kernel, found, unmapped r found⟩

end Xv6Table
