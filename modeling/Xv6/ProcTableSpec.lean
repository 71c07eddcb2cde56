import Xv6.ProcTable
import Xv6.VmUser

/- The pages of the processes: who has them, and that the calls but clone keep it so. -/
namespace Xv6Table
open Outcome Xv6Vm Xv6 Function

/-- Places for pages outside of the page tables: the trapframe of a process, pages that the kernel
    keeps, and the page in the hands of the running code. -/
inductive Holder (n N : Nat) where
  | frame (q : Fin n)
  | kept (pg : Fin N)
  | hand
  deriving DecidableEq

section
variable {n N : Nat}
variable {t : State n N} {O : Type} {call : Call}

def live (proc : Fin n → Proc n N) (r : Fin N) : Bool := decide (∃ q, (proc q).pagetable = some r)

def other (proc : Fin n → Proc n N) (kept : Fin N → Bool) : Holder n N → Option (Fin N)
  | .frame q => (proc q).trapframe
  | .kept pg => if kept pg then some pg else none
  | .hand => none

abbrev Held (vm : Vm N) (proc : Fin n → Proc n N) (kept : Fin N → Bool) : Prop :=
  Book vm (live proc) (other proc kept)

def Apart (proc : Fin n → Proc n N) : Prop :=
  ∀ q q' r, (proc q).pagetable = some r → (proc q').pagetable = some r → q = q'

variable {proc : Fin n → Proc n N} {kept : Fin N → Bool} {vm vm' : Vm N} {p q : Fin n} {r pg : Fin N}
  {x : Proc n N}

theorem live_of (has : (proc q).pagetable = some r) : live proc r = true := decide_eq_true ⟨q, has⟩

theorem of_live (lives : live proc r = true) : ∃ q, (proc q).pagetable = some r := of_decide_eq_true lives

theorem live_update (r : Fin N) : live (update proc p x) r = true ↔
    x.pagetable = some r ∨ ∃ q, q ≠ p ∧ (proc q).pagetable = some r := by
  constructor
  · intro lives
    obtain ⟨q, has⟩ := of_live lives
    by_cases same : q = p
    · rw [same, update_self] at has
      exact .inl has
    rw [update_of_ne same] at has
    exact .inr ⟨q, same, has⟩
  rintro (has | ⟨q, apart, has⟩)
  · refine live_of (q := p) ?_
    rw [update_self]
    exact has
  refine live_of (q := q) ?_
  rw [update_of_ne apart]
  exact has

theorem live_same (same : x.pagetable = (proc p).pagetable) : live (update proc p x) = live proc := by
  have tables : ∀ q, (update proc p x q).pagetable = (proc q).pagetable := by
    intro q
    by_cases here : q = p
    · rw [here, update_self, same]
    · rw [update_of_ne here]
  unfold live
  simp only [tables]

theorem live_add (none : (proc p).pagetable = none) (new : x.pagetable = some r) :
    live (update proc p x) = update (live proc) r true := by
  funext r'
  rw [Bool.eq_iff_iff, live_update, new]
  by_cases same : r' = r
  · rw [same, update_self]
    exact ⟨fun _ => rfl, fun _ => .inl rfl⟩
  rw [update_of_ne same]
  constructor
  · rintro (absurd | ⟨q, _, has⟩)
    · exact (same (Option.some.inj absurd).symm).elim
    · exact live_of has
  intro lives
  obtain ⟨q, has⟩ := of_live lives
  refine .inr ⟨q, ?_, has⟩
  rintro rfl
  rw [none] at has
  cases has

theorem live_remove (apart : Apart proc) (old : (proc p).pagetable = some r) (gone : x.pagetable = none) :
    live (update proc p x) = update (live proc) r false := by
  funext r'
  rw [Bool.eq_iff_iff, live_update, gone]
  by_cases same : r' = r
  · rw [same, update_self]
    constructor
    · rintro (absurd | ⟨q, away, has⟩)
      · cases absurd
      · exact (away (apart q p r has old)).elim
    · rintro ⟨⟩
  rw [update_of_ne same]
  constructor
  · rintro (absurd | ⟨q, _, has⟩)
    · cases absurd
    · exact live_of has
  intro lives
  obtain ⟨q, has⟩ := of_live lives
  refine .inr ⟨q, ?_, has⟩
  rintro rfl
  exact same (Option.some.inj (has.symm.trans old))

theorem live_replace {r' : Fin N} (apart : Apart proc) (old : (proc p).pagetable = some r)
    (fresh : live proc r' = false) (new : x.pagetable = some r') :
    live (update proc p x) = update (update (live proc) r' true) r false := by
  have different : r' ≠ r := by
    rintro rfl
    rw [live_of old] at fresh
    cases fresh
  have gone := live_remove (x := { x with pagetable := none }) apart old rfl
  have emptied : (update proc p { x with pagetable := none } p).pagetable = none := by rw [update_self]
  have added := live_add emptied new
  rw [update_idem, gone, update_comm different.symm] at added
  exact added

theorem other_update : other (update proc p x) kept = update (other proc kept) (.frame p) x.trapframe := by
  funext o
  cases o with
  | frame q =>
    by_cases same : q = p
    · rw [same, update_self, other, update_self]
    · rw [update_of_ne fun eq => same (Holder.frame.inj eq), other, update_of_ne same, other]
  | kept pg | hand =>
    rw [update_of_ne (by intro eq; cases eq)]
    rfl

theorem other_same (same : x.trapframe = (proc p).trapframe) : other (update proc p x) kept = other proc kept := by
  rw [other_update, same]
  exact update_eq_self (Holder.frame p) (other proc kept)

theorem held_same (held : Held vm proc kept) (table : x.pagetable = (proc p).pagetable)
    (frame : x.trapframe = (proc p).trapframe) : Held vm (update proc p x) kept := by
  unfold Held
  rw [live_same table, other_same frame]
  exact held

theorem apart_same (apart : Apart proc) (table : x.pagetable = (proc p).pagetable ∨ x.pagetable = none) :
    Apart (update proc p x) := by
  have back : ∀ q r, (update proc p x q).pagetable = some r → (proc q).pagetable = some r := by
    intro q r has
    by_cases same : q = p
    · rw [same, update_self] at has
      rcases table with kept | gone
      · rw [same, ← kept]
        exact has
      rw [gone] at has
      cases has
    rw [update_of_ne same] at has
    exact has
  intro q q' r first snd
  exact apart q q' r (back q r first) (back q' r snd)

theorem apart_new (apart : Apart proc) (fresh : live proc r = false) (new : x.pagetable = some r) :
    Apart (update proc p x) := by
  have only : ∀ q, (update proc p x q).pagetable = some r → q = p := by
    intro q has
    by_contra away
    rw [update_of_ne away] at has
    rw [live_of has] at fresh
    cases fresh
  intro q q' r' first snd
  by_cases here : q = p
  · rw [here, update_self, new] at first
    obtain rfl := Option.some.inj first
    rw [here, only q' snd]
  by_cases there : q' = p
  · rw [there, update_self, new] at snd
    obtain rfl := Option.some.inj snd
    exact (here (only q first)).elim
  rw [update_of_ne here] at first
  rw [update_of_ne there] at snd
  exact apart q q' r' first snd

/- The code of the page tables in a call. -/

variable {s s' : State n N} {A B : Type} {good : A → State n N → Prop} {bad : String → Prop}

theorem onVm_ends {c : M N A} {mid : A → Vm N → Prop} (first : Ends c s.vm mid bad)
    (last : ∀ a vm, mid a vm → good a (s.setVm vm)) : Ends (onVm c) s good bad := by
  unfold Ends onVm at *
  cases res : c s.vm with
  | error msg =>
    rw [res] at first
    exact first
  | ok pair =>
    rw [res] at first
    exact last pair.1 pair.2 first

theorem onVm_then {c : M N B} {f : B → K n N A} {mid : B → Vm N → Prop} (first : Ends c s.vm mid bad)
    (next : ∀ b vm, mid b vm → Ends (f b) (s.setVm vm) good bad) : Ends (onVm c >>= f) s good bad := by
  have memory : Ends (onVm c) s (fun b t => ∃ vm, t = s.setVm vm ∧ mid b vm) bad :=
    onVm_ends first fun b vm holds => ⟨vm, rfl, holds⟩
  apply ends_bind memory
  rintro b t ⟨vm, rfl, holds⟩
  exact next b vm holds

theorem freeTrapframe_spec (held : Held s.vm s.proc kept) (p : Fin n) :
    Ends (freeTrapframe (s.proc p).trapframe) s (fun _ t => ∃ vm, t = s.setVm vm ∧ vm.tables = s.vm.tables ∧
      Book vm (live s.proc) (update (other s.proc kept) (.frame p) none)) bad := by
  cases frame : (s.proc p).trapframe with
  | none =>
    refine ends_pure ⟨s.vm, rfl, rfl, ?_⟩
    have empty : other s.proc kept (.frame p) = none := frame
    rw [← empty, update_eq_self]
    exact held
  | some pg =>
    have taken : other s.proc kept (.frame p) = some pg := frame
    exact ends_known rfl ⟨s.vm.free pg, rfl, rfl, book_drop held taken⟩

theorem freeproc_spec (held : Held s.vm s.proc kept) (apart : Apart s.proc)
    (image : ∀ r, (s.proc p).pagetable = some r → ∃ f, Image (s.vm.tables r).leaf f (pages (s.proc p).sz)) :
    Ends (freeproc p) s (fun _ t => ∃ vm, t = (s.setVm vm).set p Proc.freed ∧
      Held vm (update s.proc p (s.proc p).freed) kept ∧
      ∀ r, (s.proc p).pagetable ≠ some r → vm.tables r = s.vm.tables r) bad := by
  unfold freeproc
  refine get_then (ends_bind (freeTrapframe_spec held p) ?_)
  rintro _ _ ⟨vm₁, rfl, tables₁, book₁⟩
  have frames : other (update s.proc p (s.proc p).freed) kept =
      update (other s.proc kept) (.frame p) none := other_update
  cases table : (s.proc p).pagetable with
  | none =>
    refine ends_known rfl ⟨vm₁, rfl, ?_, fun r _ => by rw [tables₁]⟩
    unfold Held
    rw [frames, live_same table.symm]
    exact book₁
  | some r =>
    obtain ⟨f, image⟩ := image r table
    rw [← tables₁] at image
    apply onVm_then (procFreepagetable_spec book₁ (live_of table) image)
    rintro _ vm₂ ⟨book₂, away⟩
    refine ends_known rfl ⟨vm₂, rfl, ?_, ?_⟩
    · unfold Held
      rw [frames, live_remove apart table rfl]
      exact book₂
    intro r' different
    have apart' : r' ≠ r := fun same => different (by rw [same])
    rw [away r' apart']
    exact congrFun tables₁ r'

/-- A process has a page table for its size and its trapframe, and an unused slot has nothing. -/
structure Slot (vm : Vm N) (x : Proc n N) : Prop where
  unused : x.state = .unused → x.pagetable = none ∧ x.trapframe = none ∧ x.sz = 0
  image : x.state ≠ .unused → ∃ r f, x.pagetable = some r ∧ x.trapframe = some f ∧
    Image (vm.tables r).leaf f (pages x.sz)

structure Inv (kept : Fin N → Bool) (s : State n N) : Prop where
  held : Held s.vm s.proc kept
  apart : Apart s.proc
  slot : ∀ q, Slot s.vm (s.proc q)

theorem slot_tables {x : Proc n N} (slot : Slot vm x) (same : ∀ r, x.pagetable = some r → vm'.tables r = vm.tables r) :
    Slot vm' x := by
  refine ⟨slot.unused, fun used => ?_⟩
  obtain ⟨r, f, table, frame, image⟩ := slot.image used
  refine ⟨r, f, table, frame, ?_⟩
  rw [same r table]
  exact image

def Spares (s : State n N) (p : Fin n) (vm : Vm N) : Prop :=
  ∀ q, q ≠ p → ∀ r, (s.proc q).pagetable = some r → vm.tables r = s.vm.tables r

theorem inv_others (inv : Inv kept s) (table : (s.proc p).pagetable = some r) (same : Elsewhere r s.vm vm) :
    Spares s p vm := by
  intro q away r' has
  apply same r'
  rintro rfl
  exact away (inv.apart q p r' has table)

theorem slot_freed (x : Proc n N) : Slot vm x.freed := ⟨fun _ => ⟨rfl, rfl, rfl⟩, fun used => absurd rfl used⟩

theorem inv_update (inv : Inv kept s) (held : Held vm (update s.proc p x) kept)
    (apart : Apart (update s.proc p x)) (slot : Slot vm x) (same : Spares s p vm) (nextpid : Int32) :
    Inv kept ⟨vm, update s.proc p x, nextpid⟩ := by
  refine ⟨held, apart, fun q => ?_⟩
  by_cases here : q = p
  · rw [here]
    change Slot vm (update s.proc p x p)
    rw [update_self]
    exact slot
  change Slot vm (update s.proc p x q)
  rw [update_of_ne here]
  exact slot_tables (inv.slot q) (same q here)

structure Keeps (s t : State n N) (q : Fin n) : Prop where
  table : (t.proc q).pagetable = (s.proc q).pagetable
  frame : (t.proc q).trapframe = (s.proc q).trapframe
  tables : ∀ r, (s.proc q).pagetable = some r → t.vm.tables r = s.vm.tables r

theorem keeps_refl (s : State n N) (q : Fin n) : Keeps s s q := ⟨rfl, rfl, fun _ _ => rfl⟩

theorem keeps_trans (first : Keeps s t q) (snd : Keeps t s' q) : Keeps s s' q := by
  refine ⟨snd.table.trans first.table, snd.frame.trans first.frame, fun r has => ?_⟩
  rw [snd.tables r (first.table.trans has), first.tables r has]

@[simp]
theorem set_set (s : State n N) (p : Fin n) (f g : Proc n N → Proc n N) :
    (s.set p f).set p g = s.set p fun q => g (f q) := by
  simp [State.set]

@[simp]
theorem set_proc_self (s : State n N) (p : Fin n) (f : Proc n N → Proc n N) : (s.set p f).proc p = f (s.proc p) :=
  update_self _ _ _

@[simp]
theorem set_proc_other (s : State n N) (f : Proc n N → Proc n N) (apart : q ≠ p) :
    (s.set p f).proc q = s.proc q := update_of_ne apart _ _

theorem set_setVm (s : State n N) (p : Fin n) (f : Proc n N → Proc n N) (vm : Vm N) :
    (s.set p f).setVm vm = (s.setVm vm).set p f := rfl

theorem kalloc_spec (vm : Vm N) : Ends kalloc vm (fun found vm' => (found = none ∧ ∃ luck, vm' = vm.setLuck luck) ∨
    ∃ pg rest luck, found = some pg ∧ vm.freelist = pg :: rest ∧ vm' = (vm.setFree rest).setLuck luck) bad := by
  rw [← bind_pure kalloc]
  exact kalloc_then (fun luck => ends_pure (.inl ⟨rfl, luck, rfl⟩))
    fun pg rest luck head => ends_pure (.inr ⟨pg, rest, luck, rfl, head, rfl⟩)

/-- The slot is unused again, or has a process with an empty user memory. -/
def Allocated (kept : Fin N → Bool) (s : State n N) (p : Fin n) (found : Option (Fin n)) (t : State n N) : Prop :=
  Inv kept t ∧ (∀ q, q ≠ p → t.proc q = s.proc q ∧ Keeps s t q) ∧
    (found = none ∧ (t.proc p).state = .unused ∨
      found = some p ∧ (t.proc p).state = .used ∧ (t.proc p).sz = 0)

theorem keeps_others (procs : t.proc = update s.proc p x) (same : Spares s p t.vm) :
    ∀ q, q ≠ p → t.proc q = s.proc q ∧ Keeps s t q := by
  intro q apart
  have eq : t.proc q = s.proc q := by
    rw [procs]
    exact update_of_ne apart _ _
  exact ⟨eq, by rw [eq], by rw [eq], same q apart⟩

theorem abandon_spec (inv : Inv kept s) (procs : t.proc = update s.proc p x)
    (noTable : x.pagetable = none) (held : Held t.vm t.proc kept)
    (same : Spares s p t.vm) :
    Ends (do
      freeproc p
      pure none) t (Allocated kept s p) bad := by
  have here : t.proc p = x := by
    rw [procs]
    exact update_self _ _ _
  have apart : Apart t.proc := by
    rw [procs]
    exact apart_same inv.apart (.inr noTable)
  refine ends_bind (freeproc_spec held apart fun r has => ?_) ?_
  · rw [here, noTable] at has
    cases has
  rintro _ u ⟨vm, rfl, held', tables⟩
  rw [here, noTable] at tables
  have same' : Spares s p vm := by
    intro q away r has
    rw [tables r nofun]
    exact same q away r has
  have res : update t.proc p (t.proc p).freed = update s.proc p x.freed := by
    rw [here, procs, update_idem]
  refine ends_pure ⟨?_, keeps_others res same', .inl ⟨rfl, ?_⟩⟩
  · rw [res] at held'
    have inv' := inv_update inv held' (apart_same inv.apart (.inr rfl)) (slot_freed _) same' t.nextpid
    rw [← res] at inv'
    exact inv'
  rw [set_proc_self]
  rfl

theorem allocprocFound_spec (inv : Inv kept s) (unused : (s.proc p).state = .unused) :
    Ends (allocprocFound p) s (Allocated kept s p) bad := by
  obtain ⟨noTable, noFrame, noSize⟩ := (inv.slot p).unused unused
  unfold allocprocFound
  refine known_then (t := { s with nextpid := s.nextpid + 1 }) rfl (modify_then ?_)
  apply onVm_then (kalloc_spec _)
  rintro found vm₁ (⟨rfl, luck, rfl⟩ | ⟨frame, rest, luck, rfl, head, rfl⟩)
  · apply modify_then
    rw [set_setVm, set_set]
    refine abandon_spec inv rfl noTable ?_ fun _ _ _ _ => rfl
    exact held_same (book_luck inv.held luck) rfl noFrame.symm
  apply modify_then
  rw [set_setVm, set_set]
  have empty : other s.proc kept (.frame p) = none := noFrame
  have book₁ := book_grab inv.held empty head luck
  apply onVm_then (procPagetable_spec frame book₁)
  rintro found vm₂ ⟨missing, made⟩
  cases found with
  | none =>
    obtain ⟨book₂, same⟩ := missing rfl
    apply modify_then
    rw [set_setVm, set_set]
    refine abandon_spec inv rfl rfl ?_ fun q _ r has => same r (live_of has)
    unfold Held
    change Book vm₂ (live (update s.proc p _)) (other (update s.proc p _) kept)
    rw [other_update, live_same noTable.symm]
    exact book₂
  | some root =>
    obtain ⟨fresh, book₂, image, same⟩ := made root rfl
    refine modify_then (ends_pure ?_)
    rw [set_setVm, set_set]
    have tables : Spares s p vm₂ := by
      intro q _ r has
      apply same r
      rintro rfl
      rw [live_of has] at fresh
      cases fresh
    have used : Xv6Proc.ProcState.used ≠ .unused := nofun
    refine ⟨?_, keeps_others rfl tables, .inr ⟨rfl, ?_, ?_⟩⟩
    · refine inv_update inv ?_ (apart_new inv.apart fresh rfl) ⟨fun absurd => (used absurd).elim, fun _ =>
        ⟨root, frame, rfl, rfl, ?_⟩⟩ tables _
      · unfold Held
        rw [other_update, live_add noTable rfl]
        exact book₂
      change Image _ frame (pages (s.proc p).sz)
      rw [noSize]
      exact image
    · rw [set_proc_self]
      rfl
    rw [set_proc_self]
    exact noSize

theorem allocproc_spec (inv : Inv kept s) (slots : List (Fin n)) : Ends (allocproc slots) s
    (fun found t => (found = none ∧ t = s) ∨ ∃ np, (s.proc np).state = .unused ∧ Allocated kept s np found t) bad := by
  induction slots with
  | nil => exact ends_pure (.inl ⟨rfl, rfl⟩)
  | cons np rest ih =>
    refine get_then (ends_ite (fun unused => ?_) fun _ => ih)
    exact ends_better (allocprocFound_spec inv unused) fun found t made => .inr ⟨np, unused, made⟩

/- fork. -/

theorem followed_then {found : Option (Fin N)} {f : Fin N → K n N A} (has : found = some pg)
    (next : Ends (f pg) s good bad) : Ends (followed found >>= f) s good bad := by
  rw [has]
  exact next

theorem inv_used (inv : Inv kept s) (used : (s.proc q).state ≠ .unused) : ∃ r f, (s.proc q).pagetable = some r ∧
    (s.proc q).trapframe = some f ∧ Image (s.vm.tables r).leaf f (pages (s.proc q).sz) :=
  (inv.slot q).image used

theorem forkFound_spec {np : Fin n} (inv : Inv kept s) (caller : (s.proc p).state ≠ .unused) (apart : p ≠ np)
    (child : (s.proc np).state = .used) (size : (s.proc np).sz = 0) : Ends (forkFound p np) s
      (fun _ t => Inv kept t ∧ ∀ q, q ≠ np → t.proc q = s.proc q ∧ Keeps s t q) bad := by
  obtain ⟨old, f, table, frame, image⟩ := inv_used inv caller
  obtain ⟨new, f', table', frame', image'⟩ := inv_used inv (by rw [child]; nofun)
  rw [size] at image'
  have different : new ≠ old := by
    rintro rfl
    exact apart (inv.apart p np new table table')
  unfold forkFound
  refine get_then (followed_then table (followed_then table' ?_))
  refine onVm_then (uvmcopy_spec (o := .hand) rfl different image.users image'.users inv.held (live_of table)
    (live_of table')) ?_
  rintro ok vm ⟨book, leaf', leaves, outcome⟩
  have same := inv_others inv table' leaves.tables
  cases ok with
  | true =>
    rcases outcome with ⟨_, users, agree⟩ | ⟨absurd, _⟩
    · refine modify_then (ends_pure ⟨?_, keeps_others rfl same⟩)
      refine inv_update (x := Proc.forked p (s.proc p) (s.proc np)) inv (held_same book rfl rfl)
        (apart_same inv.apart (.inl rfl)) ⟨?_, fun _ => ⟨new, f', table', frame', ?_⟩⟩ same _
      · intro absurd
        cases absurd
      rw [leaves.leaf]
      refine ⟨users, fun v above => ?_⟩
      rw [agree v (.inr (users.bound.trans above))]
      exact image'.top v above
    · cases absurd
  | false =>
    rcases outcome with ⟨absurd, _⟩ | ⟨_, unchanged⟩
    · cases absurd
    have here : (vm.tables new).leaf = (s.vm.tables new).leaf := leaves.leaf.trans unchanged
    refine ends_bind (freeproc_spec book inv.apart fun r has => ⟨f', ?_⟩) ?_
    · have eq : r = new := Option.some.inj (has.symm.trans table')
      change Image (vm.tables r).leaf f' (pages (s.proc np).sz)
      rw [eq, here, size]
      exact image'
    rintro _ t ⟨vm', rfl, held', tables⟩
    have same' : Spares s np vm' := by
      intro q away r has
      rw [tables r fun also => away (inv.apart q np r has also)]
      exact same q away r has
    refine ends_pure ⟨?_, keeps_others rfl same'⟩
    exact inv_update inv held' (apart_same inv.apart (.inr rfl)) (slot_freed _) same' _

theorem fork_spec (inv : Inv kept s) (caller : (s.proc p).state ≠ .unused) : Ends (fork p) s
    (fun _ t => Inv kept t ∧ ∀ q, (s.proc q).state ≠ .unused → t.proc q = s.proc q ∧ Keeps s t q) bad := by
  unfold fork
  apply ends_bind (allocproc_spec inv (List.finRange n))
  rintro found t (⟨rfl, rfl⟩ | ⟨np, unused, inv', others, outcome⟩)
  · exact ends_pure ⟨inv, fun q _ => ⟨rfl, keeps_refl t q⟩⟩
  have away : ∀ q, (s.proc q).state ≠ .unused → q ≠ np := by
    rintro q used rfl
    exact used unused
  rcases outcome with ⟨rfl, _⟩ | ⟨rfl, child, size⟩
  · exact ends_pure ⟨inv', fun q used => others q (away q used)⟩
  have apart := away p caller
  have caller' : (t.proc p).state ≠ .unused := by
    rw [(others p apart).1]
    exact caller
  apply ends_better (forkFound_spec inv' caller' apart child size)
  rintro _ u ⟨inv'', kept'⟩
  refine ⟨inv'', fun q used => ?_⟩
  obtain ⟨first, keeps⟩ := others q (away q used)
  obtain ⟨snd, keeps'⟩ := kept' q (away q used)
  exact ⟨snd.trans first, keeps_trans keeps keeps'⟩

/- sbrk. -/

theorem inv_vm (inv : Inv kept s) (held : Held vm s.proc kept) (slot : Slot vm (s.proc p))
    (same : Spares s p vm) : Inv kept (s.setVm vm) := by
  refine ⟨held, inv.apart, fun q => ?_⟩
  by_cases here : q = p
  · rw [here]
    exact slot
  · exact slot_tables (inv.slot q) (same q here)

theorem size_small (small : N ≤ 32768) (inv : Inv kept s) (used : (s.proc p).state ≠ .unused) :
    (s.proc p).sz < 2 ^ 32 := by
  obtain ⟨r, f, table, _, image⟩ := inv_used inv used
  have fits := users_le inv.held (live_of table) image.users
  unfold pages pgroundup PGSIZE at fits
  omega

theorem uint_exact {k : Nat} (range : k < 2 ^ 32) : (UInt32.ofNat k).toNat = k := UInt32.toNat_ofNat_of_lt range

theorem userTop_large (small : N ≤ 32768) : N < userTop := by
  have top : userTop = 67108862 := by decide
  omega

def OnlyOf (p : Fin n) (kept : Fin N → Bool) (s t : State n N) : Prop :=
  Inv kept t ∧ ∀ q, q ≠ p → t.proc q = s.proc q ∧ Keeps s t q

theorem resize_spec (inv : Inv kept s) (used : (s.proc p).state ≠ .unused) {f : Fin N}
    (table : (s.proc p).pagetable = some r) (frame : (s.proc p).trapframe = some f) {sz : Nat}
    (held : Held vm s.proc kept) (image : Image (vm.tables r).leaf f (pages sz))
    (same : Elsewhere r s.vm vm) : OnlyOf p kept s ((s.setVm vm).set p (Proc.setSize sz)) := by
  have others := inv_others inv table same
  refine ⟨?_, keeps_others rfl others⟩
  exact inv_update (x := (s.proc p).setSize sz) inv (held_same held rfl rfl) (apart_same inv.apart (.inl rfl))
    ⟨fun absurd => (used absurd).elim, fun _ => ⟨r, f, table, frame, image⟩⟩ others _

theorem growproc_spec (small : N ≤ 32768) (inv : Inv kept s) (used : (s.proc p).state ≠ .unused) (k : Int32) :
    Ends (growproc p k) s (fun _ t => OnlyOf p kept s t) bad := by
  obtain ⟨r, f, table, frame, image⟩ := inv_used inv used
  have exactly : (UInt32.ofNat (s.proc p).sz).toNat = (s.proc p).sz := uint_exact (size_small small inv used)
  unfold growproc
  refine get_then (ends_ite (fun _ => followed_then table ?_) fun _ => ends_ite (fun _ => followed_then table ?_) fun _ => ?_)
  · rw [exactly]
    generalize target : (UInt32.ofNat (s.proc p).sz + k.toUInt32).toNat = newsz
    have range : newsz < 2 ^ 32 := target ▸ UInt32.toNat_lt _
    refine onVm_then (uvmalloc_spec (o := .hand) (userTop_large small) rfl inv.held (live_of table) image.users newsz) ?_
    rintro grown vm ⟨book, leaf', leaves, top, success, failure⟩
    have uint : (UInt32.ofNat grown).toNat = grown := by
      apply uint_exact
      by_cases zero : grown = 0
      · omega
      have largest := (success zero).1
      have bound := size_small small inv used
      omega
    refine ends_ite (fun zero => ?_) fun nz => ?_
    · have unchanged : leaf' = (s.vm.tables r).leaf := by
        apply failure
        rw [← uint, zero]
        rfl
      have others := inv_others inv table leaves.tables
      refine ends_pure ⟨inv_vm inv book ⟨(inv.slot p).unused, fun _ => ⟨r, f, table, frame, ?_⟩⟩ others, ?_⟩
      · rw [leaves.leaf, unchanged]
        exact image
      · exact fun q away => ⟨rfl, rfl, rfl, others q away⟩
    have pos : grown ≠ 0 := by
      rintro rfl
      exact nz rfl
    refine modify_then (ends_pure (resize_spec inv used table frame book ?_ leaves.tables))
    rw [leaves.leaf, uint]
    exact ⟨(success pos).2, fun v above => (top v above).trans (image.top v above)⟩
  · rw [exactly]
    apply onVm_then (uvmdealloc_spec inv.held (live_of table) image.users _)
    rintro shrunk vm ⟨book, least, leaves⟩
    have bound := size_small small inv used
    have uint : (UInt32.ofNat shrunk).toNat = shrunk := uint_exact (by omega)
    have fewer : pages shrunk ≤ pages (s.proc p).sz := by
      unfold pages pgroundup PGSIZE
      omega
    refine modify_then (ends_pure (resize_spec inv used table frame book ?_ leaves.tables))
    rw [leaves.leaf, uint]
    refine ⟨users_without image.users fewer, fun v above => ?_⟩
    have low := image.users.bound
    rw [without, if_neg (by omega)]
    exact image.top v above
  have held : Held s.vm s.proc kept := inv.held
  refine modify_then (ends_pure (resize_spec inv used table frame held ?_ fun _ _ => rfl))
  rw [exactly]
  exact image

theorem sysSbrk_spec (small : N ≤ 32768) (inv : Inv kept s) (used : (s.proc p).state ≠ .unused) (k : Int32) :
    Ends (sysSbrk p k) s (fun _ t => OnlyOf p kept s t) bad := by
  unfold sysSbrk
  refine get_then (ends_bind (growproc_spec small inv used k) ?_)
  intro r t only
  exact ends_ite (fun _ => ends_pure only) fun _ => ends_pure only

/- exec. -/

theorem execLoop_spec {live : Fin N → Bool} [DecidableEq O] {other : O → Option (Fin N)} {o : O} {f : Fin N}
    (small : N ≤ 32768) (empty : other o = none) (segments : List Segment) {sz : Nat} (book : Book vm live other)
    (lives : live r = true) (image : Image (vm.tables r).leaf f (pages sz)) :
    Ends (execLoop r sz segments) vm (fun res vm' => Book vm' live other ∧
      Image (vm'.tables r).leaf f (pages res.1) ∧ Elsewhere r vm vm') bad := by
  induction segments generalizing vm sz with
  | nil => exact ends_pure ⟨book, image, fun _ _ => rfl⟩
  | cons ph rest ih =>
    have stops : ∀ ok : Bool, Ends (pure (sz, ok)) vm (fun res vm' => Book vm' live other ∧
        Image (vm'.tables r).leaf f (pages res.1) ∧ Elsewhere r vm vm') bad :=
      fun ok => ends_pure ⟨book, image, fun _ _ => rfl⟩
    unfold execLoop
    refine ends_ite (fun _ => stops false) fun _ => ends_ite (fun _ => ih book image) fun _ =>
      ends_ite (fun _ => stops false) fun _ => ends_ite (fun _ => stops false) fun _ => ?_
    apply ends_bind (uvmalloc_spec (userTop_large small) empty book lives image.users _)
    rintro sz1 vm₁ ⟨book₁, leaf', leaves, top, success, failure⟩
    refine ends_ite (fun zero => ends_pure ⟨book₁, ?_, leaves.tables⟩) fun nz => ?_
    · rw [leaves.leaf, failure zero]
      exact image
    have image₁ : Image (vm₁.tables r).leaf f (pages sz1) := by
      rw [leaves.leaf]
      exact ⟨(success nz).2, fun v above => (top v above).trans (image.top v above)⟩
    refine ends_ite (fun _ => ends_pure ⟨book₁, image₁, leaves.tables⟩) fun _ => ends_ite (fun _ =>
      ends_pure ⟨book₁, image₁, leaves.tables⟩) fun _ => ?_
    apply ends_better (ih book₁ image₁)
    rintro res vm₂ ⟨book₂, image₂, same⟩
    exact ⟨book₂, image₂, fun r' apart => (same r' apart).trans (leaves.tables r' apart)⟩

theorem undo_spec {live : Fin N → Bool} [DecidableEq O] {other : O → Option (Fin N)} {f : Fin N} {sz : Nat}
    {vm₀ : Vm N} (fresh : live r = false) (book : Book vm (update live r true) other)
    (image : Image (vm.tables r).leaf f (pages sz)) (same : Elsewhere r vm₀ vm) : Ends (procFreepagetable r sz) vm
      (fun _ vm' => Book vm' live other ∧ ∀ r', live r' = true → vm'.tables r' = vm₀.tables r') bad := by
  apply ends_better (procFreepagetable_spec book (update_self _ _ _) image)
  rintro _ vm' ⟨book', away⟩
  rw [update_idem, ← fresh, update_eq_self] at book'
  refine ⟨book', fun r' lives => ?_⟩
  have apart : r' ≠ r := by
    rintro rfl
    rw [fresh] at lives
    cases lives
  rw [away r' apart, same r' apart]

theorem execImage_spec {live : Fin N → Bool} [DecidableEq O] {other : O → Option (Fin N)} {o : O}
    (small : N ≤ 32768) (empty : other o = none) (f : Fin N) (file : Program) (book : Book vm live other) :
    Ends (execImage f file) vm (fun made vm' =>
      (made = none → Book vm' live other ∧ ∀ r', live r' = true → vm'.tables r' = vm.tables r') ∧
      ∀ r sz, made = some (r, sz) → live r = false ∧ Book vm' (update live r true) other ∧
        Image (vm'.tables r).leaf f (pages sz) ∧ Elsewhere r vm vm') bad := by
  unfold execImage
  apply ends_bind (procPagetable_spec f book)
  rintro found vm₁ ⟨missing, made⟩
  cases found with
  | none => exact ends_pure ⟨fun _ => missing rfl, nofun⟩
  | some r =>
    obtain ⟨fresh, book₁, image₁, same₁⟩ := made r rfl
    have lives : update live r true r = true := update_self _ _ _
    have none : pages 0 = 0 := by decide
    rw [← none] at image₁
    apply ends_bind (execLoop_spec small empty file.segments book₁ lives image₁)
    rintro ⟨sz, ok⟩ vm₂ ⟨book₂, image₂, same₂⟩
    have back₂ : Elsewhere r vm vm₂ := fun r' apart => (same₂ r' apart).trans (same₁ r' apart)
    refine ends_ite (fun _ => ?_) fun _ => ?_
    · apply ends_bind (undo_spec fresh book₂ image₂ back₂)
      exact fun _ vm₃ undone => ends_pure ⟨fun _ => undone, nofun⟩
    have rounded : pages (pgroundup sz) = pages sz := by
      rw [pgroundup_pages, pages_mul]
    have image₂' : Image (vm₂.tables r).leaf f (pages (pgroundup sz)) := by
      rw [rounded]
      exact image₂
    apply ends_bind (uvmalloc_spec (userTop_large small) empty book₂ lives image₂'.users _)
    rintro sz1 vm₃ ⟨book₃, leaf', leaves, top, success, failure⟩
    have back₃ : Elsewhere r vm vm₃ := by
      intro r' apart
      rw [leaves.tables r' apart, back₂ r' apart]
    refine ends_ite (fun zero => ?_) fun nz => ?_
    · have image₃ : Image (vm₃.tables r).leaf f (pages (pgroundup sz)) := by
        rw [leaves.leaf, failure zero]
        exact image₂'
      apply ends_bind (undo_spec fresh book₃ image₃ back₃)
      exact fun _ vm₄ undone => ends_pure ⟨fun _ => undone, nofun⟩
    have largest := (success nz).1
    have users := (success nz).2
    have image₃ : Image (vm₃.tables r).leaf f (pages sz1) := by
      rw [leaves.leaf]
      exact ⟨users, fun v above => (top v above).trans (image₂.top v above)⟩
    have stack : sz1 = (pages sz + 2) * PGSIZE := by
      rw [largest, pgroundup_pages]
      unfold PGSIZE
      omega
    have guard : sz1 - 2 * PGSIZE = pages sz * PGSIZE := by
      rw [stack]
      unfold PGSIZE
      omega
    have lt : pages sz < pages sz1 := by
      rw [stack, pages_mul]
      omega
    generalize sz1 - 2 * PGSIZE = va at guard ⊢
    apply ends_bind (uvmclear_spec book₃ lives image₃ guard lt)
    rintro _ vm₄ ⟨book₄, image₄, same₄⟩
    have back₄ : Elsewhere r vm vm₄ := by
      intro r' apart
      rw [same₄ r' apart, back₃ r' apart]
    refine ends_ite (fun _ => ?_) fun _ => ?_
    · apply ends_bind (undo_spec fresh book₄ image₄ back₄)
      exact fun _ vm₅ undone => ends_pure ⟨fun _ => undone, nofun⟩
    refine ends_pure ⟨nofun, fun r₁ sz₁ res => ?_⟩
    obtain ⟨rfl, rfl⟩ := Prod.mk.inj (Option.some.inj res)
    exact ⟨fresh, book₄, image₄, back₄⟩

theorem exec_spec (small : N ≤ 32768) (inv : Inv kept s) (used : (s.proc p).state ≠ .unused) (file : Program)
    (argc : Nat) : Ends (exec p file argc) s (fun _ t => OnlyOf p kept s t) bad := by
  obtain ⟨old, f, table, frame, image⟩ := inv_used inv used
  have nothing : OnlyOf p kept s s := ⟨inv, fun q _ => ⟨rfl, keeps_refl s q⟩⟩
  unfold exec
  refine ends_ite (fun _ => ends_pure nothing) fun _ => get_then (followed_then frame ?_)
  refine onVm_then (execImage_spec (o := .hand) small rfl f file inv.held) ?_
  rintro made vm₁ ⟨missing, done⟩
  cases made with
  | none =>
    obtain ⟨book₁, same⟩ := missing rfl
    have others : ∀ q r, (s.proc q).pagetable = some r → vm₁.tables r = s.vm.tables r :=
      fun q r has => same r (live_of has)
    refine ends_pure ⟨inv_vm (p := p) inv book₁ (slot_tables (inv.slot p) (others p)) fun q _ => others q, ?_⟩
    exact fun q _ => ⟨rfl, rfl, rfl, others q⟩
  | some pair =>
    obtain ⟨root, sz⟩ := pair
    obtain ⟨fresh, book₁, image₁, same₁⟩ := done root sz rfl
    have different : old ≠ root := by
      rintro rfl
      rw [live_of table] at fresh
      cases fresh
    refine followed_then table (modify_then ?_)
    have lives : update (live s.proc) root true old = true := by
      rw [update_of_ne different]
      exact live_of table
    have image' : Image (vm₁.tables old).leaf f (pages (s.proc p).sz) := by
      rw [same₁ old different]
      exact image
    apply onVm_then (procFreepagetable_spec book₁ lives image')
    rintro _ vm₂ ⟨book₂, same₂⟩
    have others : Spares s p vm₂ := by
      intro q away r has
      have apart : r ≠ old := by
        rintro rfl
        exact away (inv.apart q p r has table)
      have apart' : r ≠ root := by
        rintro rfl
        rw [live_of has] at fresh
        cases fresh
      exact (same₂ r apart).trans (same₁ r apart')
    refine ends_pure ⟨?_, keeps_others rfl others⟩
    refine inv_update (x := (((s.proc p).setTable (some root)).setSize sz).setRegs _) inv ?_
      (apart_new inv.apart fresh rfl) ⟨fun absurd => (used absurd).elim, fun _ => ⟨root, f, rfl, frame, ?_⟩⟩ others _
    · have frames : ∀ regs, other (update s.proc p ((((s.proc p).setTable (some root)).setSize sz).setRegs
          regs)) kept = other s.proc kept := fun regs => other_same rfl
      unfold Held
      rw [live_replace inv.apart table fresh rfl, frames]
      exact book₂
    rw [same₂ root different.symm]
    exact image₁

/- The pages of sys_exec's arguments. -/

theorem other_keep (b : Bool) : other proc (update kept pg b) =
    update (other proc kept) (.kept pg) (if b then some pg else none) := by
  funext o
  cases o with
  | frame q | hand =>
    rw [update_of_ne (by intro eq; cases eq)]
    rfl
  | kept pg' =>
    by_cases same : pg' = pg
    · rw [same, update_self, other, update_self]
    · rw [update_of_ne fun eq => same (Holder.kept.inj eq), other, update_of_ne same, other]

def keeping (kept : Fin N → Bool) (pages : List (Fin N)) (pg : Fin N) : Bool := kept pg || decide (pg ∈ pages)

theorem keeping_nil (kept : Fin N → Bool) : keeping kept [] = kept := by
  funext pg
  simp [keeping]

theorem keeping_cons (kept : Fin N → Bool) (pages : List (Fin N)) :
    keeping kept (pg :: pages) = update (keeping kept pages) pg true := by
  funext x
  by_cases same : x = pg
  · simp [keeping, same]
  · simp [keeping, same]

theorem fetchArgs_spec (ends : Bool) (args : List Bool) (i : Nat) (held : Held vm proc kept) :
    Ends (fetchArgs ends i args) vm (fun res vm' => Held vm' proc (keeping kept res.1) ∧ res.1.Nodup ∧
      (∀ pg, pg ∈ res.1 → kept pg = false) ∧ vm'.tables = vm.tables) bad := by
  induction args generalizing vm kept i with
  | nil => exact ends_pure ⟨by rw [keeping_nil]; exact held, List.nodup_nil, nofun, rfl⟩
  | cons fetched rest ih =>
    unfold fetchArgs
    refine ends_ite (fun _ => ends_pure ⟨by rw [keeping_nil]; exact held, List.nodup_nil, nofun, rfl⟩) fun _ => ?_
    refine kalloc_then (fun luck => ends_pure ⟨by rw [keeping_nil]; exact book_luck held luck, List.nodup_nil, nofun,
      rfl⟩) ?_
    intro pg free luck head
    have fresh : kept pg = false := by
      by_contra keeps
      have place : own vm (live proc) (other proc kept) (.other (.kept pg)) = some pg := by
        simp [own, other, keeps]
      have taken := of_decide_eq_true (Ownership.tracks_held held.tracks place)
      rw [head] at taken
      exact taken List.mem_cons_self
    have empty : other proc kept (.kept pg) = none := by
      simp [other, fresh]
    have book₁ := book_grab held empty head luck
    have frames : other proc (update kept pg true) = update (other proc kept) (.kept pg) (some pg) :=
      other_keep true
    rw [← frames] at book₁
    refine ends_ite (fun _ => ends_pure ⟨?_, List.nodup_singleton pg, ?_, rfl⟩) fun _ => ?_
    · rw [keeping_cons, keeping_nil]
      exact book₁
    · intro x mem
      rw [List.mem_singleton.mp mem]
      exact fresh
    apply ends_bind (ih (i + 1) book₁)
    rintro ⟨pages, ok⟩ vm₁ ⟨held₁, nodup, outside, same⟩
    have apart : ∀ x, x ∈ pages → x ≠ pg ∧ kept x = false := by
      intro x mem
      have free := outside x mem
      by_cases eq : x = pg
      · rw [eq, update_self] at free
        cases free
      rw [update_of_ne eq] at free
      exact ⟨eq, free⟩
    have moved : keeping (update kept pg true) pages = keeping kept (pg :: pages) := by
      funext x
      by_cases eq : x = pg
      · simp [keeping, eq]
      · simp [keeping, eq]
    refine ends_pure ⟨?_, List.nodup_cons.mpr ⟨fun mem => (apart pg mem).1 rfl, nodup⟩, ?_, same⟩
    · rw [← moved]
      exact held₁
    intro x mem
    rcases List.mem_cons.mp mem with rfl | later
    · exact fresh
    · exact (apart x later).2

theorem freeArgs_spec (pages : List (Fin N)) (nodup : pages.Nodup)
    (outside : ∀ pg, pg ∈ pages → kept pg = false) (held : Held vm proc (keeping kept pages)) :
    Ends (freeArgs pages) vm (fun _ vm' => Held vm' proc kept ∧ vm'.tables = vm.tables) bad := by
  induction pages generalizing vm with
  | nil =>
    rw [keeping_nil] at held
    exact ends_pure ⟨held, rfl⟩
  | cons pg rest ih =>
    obtain ⟨missing, nodup⟩ := List.nodup_cons.mp nodup
    have place : other proc (keeping kept (pg :: rest)) (.kept pg) = some pg := by
      simp [other, keeping]
    have fewer : update (keeping kept (pg :: rest)) pg false = keeping kept rest := by
      funext x
      by_cases same : x = pg
      · rw [same, update_self]
        simp [keeping, missing, outside pg List.mem_cons_self]
      rw [update_of_ne same]
      simp [keeping, same]
    have book := book_drop held place
    have frames : other proc (update (keeping kept (pg :: rest)) pg false) =
        update (other proc (keeping kept (pg :: rest))) (.kept pg) none := other_keep false
    rw [← frames, fewer] at book
    refine modify_then (ends_better (ih nodup (fun x mem => outside x (List.mem_cons_of_mem _ mem)) book)
      ?_)
    rintro _ vm' ⟨held', same⟩
    exact ⟨held', same⟩

theorem sysExec_spec (small : N ≤ 32768) (inv : Inv kept s) (used : (s.proc p).state ≠ .unused) (args : List Bool)
    (ends : Bool) (file : Program) : Ends (sysExec p args ends file) s (fun _ t => OnlyOf p kept s t) bad := by
  unfold sysExec
  apply onVm_then (fetchArgs_spec ends args 0 inv.held)
  rintro ⟨pages, ok⟩ vm₁ ⟨held₁, nodup, outside, same⟩
  have inv₁ : Inv (keeping kept pages) (s.setVm vm₁) :=
    ⟨held₁, inv.apart, fun q => slot_tables (inv.slot q) fun r _ => congrFun same r⟩
  -- whatever exec did, the pages of the arguments are freed
  have frees : ∀ (ret : Int32) {t}, OnlyOf p (keeping kept pages) (s.setVm vm₁) t → Ends (do
      onVm (freeArgs pages)
      pure ret) t (fun _ t => OnlyOf p kept s t) bad := by
    rintro ret t ⟨inv₂, others⟩
    apply onVm_then (freeArgs_spec pages nodup outside inv₂.held)
    rintro _ vm₂ ⟨held₂, same₂⟩
    refine ends_pure ⟨⟨held₂, inv₂.apart, fun q => slot_tables (inv₂.slot q) fun r _ => congrFun same₂ r⟩, ?_⟩
    intro q away
    obtain ⟨eq, keeps⟩ := others q away
    refine ⟨eq, keeps.table, keeps.frame, fun r has => ?_⟩
    have first : t.vm.tables r = vm₁.tables r := keeps.tables r has
    exact (congrFun same₂ r).trans (first.trans (congrFun same r))
  refine ends_ite (fun _ => ?_) fun _ => frees (-1) ⟨inv₁, fun q _ => ⟨rfl, keeps_refl _ q⟩⟩
  exact ends_bind (exec_spec small inv₁ used file pages.length) fun ret t only => frees ret only

/- The calls that leave the memory alone. -/

structure SameMemory (s t : State n N) : Prop where
  vm : t.vm = s.vm
  table : ∀ q, (t.proc q).pagetable = (s.proc q).pagetable
  frame : ∀ q, (t.proc q).trapframe = (s.proc q).trapframe
  size : ∀ q, (t.proc q).sz = (s.proc q).sz
  unused : ∀ q, (t.proc q).state = .unused ↔ (s.proc q).state = .unused

theorem same_refl (s : State n N) : SameMemory s s := ⟨rfl, fun _ => rfl, fun _ => rfl, fun _ => rfl, fun _ => Iff.rfl⟩

theorem same_trans (first : SameMemory s t) (snd : SameMemory t s') : SameMemory s s' where
  vm := snd.vm.trans first.vm
  table := fun q => (snd.table q).trans (first.table q)
  frame := fun q => (snd.frame q).trans (first.frame q)
  size := fun q => (snd.size q).trans (first.size q)
  unused := fun q => (snd.unused q).trans (first.unused q)

theorem same_set (s : State n N) (f : Proc n N → Proc n N) (table : (f (s.proc p)).pagetable = (s.proc p).pagetable)
    (frame : (f (s.proc p)).trapframe = (s.proc p).trapframe) (size : (f (s.proc p)).sz = (s.proc p).sz)
    (unused : (f (s.proc p)).state = .unused ↔ (s.proc p).state = .unused) : SameMemory s (s.set p f) := by
  refine ⟨rfl, fun q => ?_, fun q => ?_, fun q => ?_, fun q => ?_⟩ <;> by_cases here : q = p
  · rw [here, set_proc_self, table]
  · rw [set_proc_other s f here]
  · rw [here, set_proc_self, frame]
  · rw [set_proc_other s f here]
  · rw [here, set_proc_self, size]
  · rw [set_proc_other s f here]
  · rw [here, set_proc_self, unused]
  · rw [set_proc_other s f here]

theorem same_keeps (same : SameMemory s t) (q : Fin n) : Keeps s t q := by
  refine ⟨same.table q, same.frame q, fun r _ => ?_⟩
  rw [same.vm]

theorem inv_same (inv : Inv kept s) (same : SameMemory s t) : Inv kept t := by
  have lives : live t.proc = live s.proc := by
    funext r
    simp only [live, same.table]
  have others : other t.proc kept = other s.proc kept := by
    funext o
    cases o with
    | frame q => exact same.frame q
    | kept pg => rfl
    | hand => rfl
  refine ⟨?_, ?_, fun q => ⟨?_, ?_⟩⟩
  · unfold Held
    rw [same.vm, lives, others]
    exact inv.held
  · intro q q' r first snd
    rw [same.table] at first snd
    exact inv.apart q q' r first snd
  · intro unused
    rw [same.table, same.frame, same.size]
    exact (inv.slot q).unused ((same.unused q).mp unused)
  intro used
  rw [same.table, same.frame, same.size, same.vm]
  exact (inv.slot q).image fun unused => used ((same.unused q).mpr unused)

theorem wakeup_spec (s : State n N) (p : Fin n) (chan : Option (Fin n)) :
    Ends (wakeup p chan) s (fun _ t => t.vm = s.vm ∧ ∀ q, t.proc q = s.proc q ∨
      (q ≠ p ∧ (s.proc q).state = .sleeping ∧ t.proc q = (s.proc q).setState .runnable)) bad := by
  refine ends_known rfl ⟨rfl, fun q => ?_⟩
  by_cases woken : q ≠ p ∧ (s.proc q).state = .sleeping ∧ (s.proc q).chan = chan
  · exact .inr ⟨woken.1, woken.2.1, if_pos woken⟩
  · exact .inl (if_neg woken)

theorem same_wakeup (s : State n N) (p : Fin n) (chan : Option (Fin n)) :
    Ends (wakeup p chan) s (fun _ t => SameMemory s t) bad := by
  apply ends_better (wakeup_spec s p chan)
  rintro _ t ⟨vm, each⟩
  have fields : ∀ q, (t.proc q).pagetable = (s.proc q).pagetable ∧ (t.proc q).trapframe = (s.proc q).trapframe ∧
      (t.proc q).sz = (s.proc q).sz ∧ ((t.proc q).state = .unused ↔ (s.proc q).state = .unused) := by
    intro q
    rcases each q with same | ⟨_, sleeps, woken⟩
    · rw [same]
      exact ⟨rfl, rfl, rfl, Iff.rfl⟩
    rw [woken, sleeps]
    exact ⟨rfl, rfl, rfl, nofun, nofun⟩
  exact ⟨vm, fun q => (fields q).1, fun q => (fields q).2.1, fun q => (fields q).2.2.1, fun q => (fields q).2.2.2⟩

theorem same_kill (pid : Int32) (slots : List (Fin n)) (s : State n N) :
    Ends (kill pid slots) s (fun _ t => SameMemory s t) bad := by
  induction slots with
  | nil => exact ends_pure (same_refl s)
  | cons p rest ih =>
    refine get_then (ends_ite (fun _ => modify_then (ends_pure (same_set s _ rfl rfl rfl ?_))) fun _ => ih)
    unfold Proc.kill
    by_cases sleeps : (s.proc p).state = .sleeping
    · simp only [sleeps, if_true]
      exact ⟨nofun, nofun⟩
    · simp only [sleeps, if_false]

theorem same_reparent [NeZero n] (p : Fin n) (slots : List (Fin n)) (s : State n N) :
    Ends (reparent p slots) s (fun _ t => SameMemory s t) bad := by
  induction slots generalizing s with
  | nil => exact ends_pure (same_refl s)
  | cons pp rest ih =>
    refine get_then (ends_ite (fun _ => modify_then ?_) fun _ => ih s)
    have first : SameMemory s (s.set pp (Proc.setParent (some 0))) := same_set s _ rfl rfl rfl Iff.rfl
    refine ends_bind (same_wakeup _ p (some 0)) fun _ t snd => ?_
    apply ends_better (ih t)
    exact fun _ u third => same_trans first (same_trans snd third)

theorem exit_spec [NeZero n] (status : Int32) (used : (s.proc p).state ≠ .unused) :
    Ends (exit p status) s (fun _ t => SameMemory s t) (· = "init exiting") := by
  unfold exit
  refine ends_ite (fun _ => ends_throw rfl) fun _ => modify_then ?_
  have first : SameMemory s (s.set p (Proc.setFiles fun _ => none)) := same_set s _ rfl rfl rfl Iff.rfl
  refine ends_bind (same_reparent p (List.finRange n) _) fun _ t snd => get_then ?_
  refine ends_bind (same_wakeup t p (t.proc p).parent) fun _ u third => ?_
  have so_far := same_trans first (same_trans snd third)
  have used' : (u.proc p).state ≠ .unused := fun unused => used ((so_far.unused p).mp unused)
  refine ends_known rfl (same_trans so_far (same_set u _ rfl rfl rfl ?_))
  exact ⟨nofun, fun unused => absurd unused used'⟩

/- wait. -/

theorem waitScan_spec (inv : Inv kept s) (addr : UInt64) (copied havekids : Bool) (slots : List (Fin n)) :
    Ends (waitScan p addr copied havekids slots) s (fun res t => Inv kept t ∧
      (∀ q, (t.proc q).state ≠ .unused → Keeps s t q) ∧ ∀ b, res = .inr b → t = s) bad := by
  induction slots generalizing havekids with
  | nil => exact ends_pure ⟨inv, fun q _ => keeps_refl s q, fun _ _ => rfl⟩
  | cons np rest ih =>
    refine get_then (ends_ite (fun _ => ends_ite (fun zombie => ends_ite (fun _ => ?_) fun _ => ?_) fun _ => ih true)
      fun _ => ih havekids)
    · exact ends_pure ⟨inv, fun q _ => keeps_refl s q, nofun⟩
    have used : (s.proc np).state ≠ .unused := by
      rw [zombie]
      nofun
    obtain ⟨r, f, table, frame, image⟩ := inv_used inv used
    refine ends_bind (freeproc_spec inv.held inv.apart fun r' has => ⟨f, ?_⟩) ?_
    · obtain rfl := Option.some.inj (has.symm.trans table)
      exact image
    rintro _ t ⟨vm, rfl, held', tables⟩
    have same : Spares s np vm :=
      fun q away r has => tables r fun also => away (inv.apart q np r has also)
    refine ends_pure ⟨?_, fun q alive => ?_, nofun⟩
    · exact inv_update inv held' (apart_same inv.apart (.inr rfl)) (slot_freed _) same _
    by_cases here : q = np
    · rw [here, set_proc_self] at alive
      exact (alive rfl).elim
    · exact (keeps_others rfl same q here).2

theorem wait_spec (inv : Inv kept s) (used : (s.proc p).state ≠ .unused) (addr : UInt64) (copied : Bool) :
    Ends (wait p addr copied) s (fun _ t => Inv kept t ∧ ∀ q, (t.proc q).state ≠ .unused → Keeps s t q) bad := by
  unfold wait waitPass
  apply modify_then
  have first : SameMemory s (s.set p (Proc.setChan none)) := same_set s _ rfl rfl rfl Iff.rfl
  apply ends_bind (waitScan_spec (inv_same inv first) addr copied false (List.finRange n))
  rintro res t ⟨inv', keeps, scanned⟩
  have so_far : ∀ q, (t.proc q).state ≠ .unused → Keeps s t q :=
    fun q alive => keeps_trans (same_keeps first q) (keeps q alive)
  cases res with
  | inl ret => exact ends_pure ⟨inv', so_far⟩
  | inr havekids =>
    refine get_then (ends_ite (fun _ => ends_pure ⟨inv', so_far⟩) fun _ => modify_then (ends_pure ?_))
    have alive : (t.proc p).state ≠ .unused := by
      rw [scanned havekids rfl]
      exact fun unused => used ((first.unused p).mp unused)
    have last : SameMemory t (t.set p (Proc.sleeps p)) :=
      same_set t _ rfl rfl rfl ⟨nofun, fun unused => absurd unused alive⟩
    refine ⟨inv_same inv' last, fun q used' => ?_⟩
    exact keeps_trans (so_far q fun unused => used' ((last.unused q).mpr unused)) (same_keeps last q)

/- Any event. -/

theorem ends_discard {c : K n N A} {holds : State n N → Prop} (ends : Ends c s (fun _ t => holds t) bad) :
    Ends (discard c) s (fun _ t => holds t) bad :=
  ends_bind ends fun _ _ done => ends_pure done

def Call.resizes : Call → Bool
  | .exec .. => true
  | .sbrk _ => true
  | _ => false

def Call.threadless (s : State n N) (call : Call) : Prop :=
  ∀ junk, call = .clone junk → ∀ np t, allocproc (List.finRange n) s ≠ .ok (some np, t)

theorem able_used (able : call.able (s.proc p) = true) : (s.proc p).state ≠ .unused := by
  intro unused
  cases call <;> simp [Call.able, unused] at able

/-- What a call keeps: the invariant, and the memory of every process that is not its caller's to change. -/
def Sound (kept : Fin N → Bool) (p : Fin n) (call : Call) (s t : State n N) : Prop :=
  Inv kept t ∧ ∀ q, (s.proc q).state ≠ .unused → (t.proc q).state ≠ .unused →
    (q ≠ p ∨ call.resizes = false) → Keeps s t q

theorem sound_same (inv : Inv kept s) (same : SameMemory s t) : Sound kept p call s t :=
  ⟨inv_same inv same, fun q _ _ _ => same_keeps same q⟩

theorem sound_only (resizes : call.resizes = true) (only : OnlyOf p kept s t) : Sound kept p call s t := by
  refine ⟨only.1, fun q _ _ apart => ?_⟩
  rcases apart with away | light
  · exact (only.2 q away).2
  rw [resizes] at light
  cases light

theorem clone_fails [NeZero n] (inv : Inv kept s) {junk : UInt64} (threadless : (Call.clone junk).threadless s) :
    Ends (sysClone p junk) s (fun _ t => Sound kept p (.clone junk) s t) bad := by
  unfold sysClone clone
  refine get_then (ends_bind (ends_result (allocproc_spec inv (List.finRange n))) ?_)
  rintro found t ⟨outcome, res⟩
  cases found with
  | some np => exact (threadless junk rfl np t res).elim
  | none =>
    apply ends_pure
    rcases outcome with ⟨_, rfl⟩ | ⟨np, unused, inv', others, _⟩
    · exact sound_same inv (same_refl t)
    refine ⟨inv', fun q used _ _ => (others q ?_).2⟩
    rintro rfl
    exact used unused

theorem call_spec [NeZero n] (small : N ≤ 32768) (inv : Inv kept s) (call : Call)
    (able : call.able (s.proc p) = true) (threadless : call.threadless s) :
    Ends (call.code p) s (fun _ t => Sound kept p call s t) (· = "init exiting") := by
  have used := able_used able
  cases call with
  | fork =>
    refine ends_discard (ends_better (fork_spec inv used) ?_)
    exact fun _ t done => ⟨done.1, fun q alive _ _ => (done.2 q alive).2⟩
  | clone junk => exact ends_discard (clone_fails inv threadless)
  | exec args ends file =>
    exact ends_discard (ends_better (sysExec_spec small inv used args ends file) (fun _ t => sound_only rfl))
  | sbrk k => exact ends_discard (ends_better (sysSbrk_spec small inv used k) (fun _ t => sound_only rfl))
  | exit status => exact ends_better (exit_spec status used) fun _ t => sound_same inv
  | wait addr copied =>
    refine ends_discard (ends_better (wait_spec inv used addr copied) ?_)
    exact fun _ t done => ⟨done.1, fun q _ alive _ => done.2 q alive⟩
  | kill pid => exact ends_discard (ends_better (same_kill pid _ s) (fun _ t => sound_same inv))
  | user regs ofile => exact ends_known rfl (sound_same inv (same_set s _ rfl rfl rfl Iff.rfl))
  | yield
  | schedule => exact ends_known rfl (sound_same inv (same_set s _ rfl rfl rfl ⟨nofun, fun unused => absurd unused used⟩))

/- The boot. -/

theorem inv_fresh {kernel : List (Fin N)} (fresh : Fresh kernel s) : Inv (fun pg => decide (pg ∈ kernel)) s := by
  have zero : ∀ q, s.proc q = Proc.zero := fun q => by rw [fresh.proc]
  have dead : ∀ r, live s.proc r = false := by
    intro r
    simp [live, zero, Proc.zero]
  have places : ∀ l pg, own s.vm (live s.proc) (other s.proc fun pg => decide (pg ∈ kernel)) l = some pg ↔
      l = .other (.kept pg) ∧ pg ∈ kernel := by
    intro l pg
    cases l with
    | root r | mid r k | low r j | user r v => simp [own, dead]
    | other o =>
      cases o with
      | frame q => simp [own, other, zero, Proc.zero]
      | hand => simp [own, other]
      | kept pg' =>
        by_cases mem : pg' ∈ kernel
        · simp only [own, other, mem, decide_true, if_true, Option.some.injEq, Place.other.injEq, Holder.kept.injEq]
          exact ⟨fun same => ⟨same, same ▸ mem⟩, And.left⟩
        simp only [own, other, mem, decide_false, Place.other.injEq, Holder.kept.injEq]
        exact ⟨by rintro ⟨⟩, fun both => absurd (both.1 ▸ both.2) mem⟩
  refine ⟨⟨⟨fun _ _ _ => trivial, ?_, ?_⟩, fresh.nodup, fresh.once, ?_⟩, ?_, ?_⟩
  · intro l l' pg first snd
    rw [((places l pg).mp first).1, ((places l' pg).mp snd).1]
  · intro pg _
    have free := fresh.free pg
    constructor
    · intro taken
      have missing : pg ∉ s.vm.freelist := of_decide_eq_true taken
      have mem : pg ∈ kernel := by
        by_contra absent
        exact missing (free.mpr absent)
      exact ⟨_, (places _ pg).mpr ⟨rfl, mem⟩⟩
    rintro ⟨l, place⟩
    have mem := ((places l pg).mp place).2
    exact decide_eq_true fun present => free.mp present mem
  · intro r lives
    rw [dead] at lives
    cases lives
  · intro q q' r first
    rw [zero] at first
    cases first
  intro q
  rw [zero]
  exact ⟨fun _ => ⟨rfl, rfl, rfl⟩, fun used => absurd rfl used⟩

theorem uvminit_spec {live : Fin N → Bool} [DecidableEq O] {other : O → Option (Fin N)} {o : O}
    (empty : other o = none) (book : Book vm live other) (lives : live r = true)
    (users : UserPages (vm.tables r).leaf 0) : Ends (uvminit r) vm (fun ok vm' => ok = true →
      Book vm' live other ∧ ∃ pg, Leaves r vm vm' (update (vm.tables r).leaf 0 (some ⟨.page pg, userPerm⟩)))
      (fun _ => True) := by
  have below : 0 < userTop := by decide
  unfold uvminit
  refine kalloc_then (fun luck => ends_throw trivial) ?_
  intro pg rest luck head
  have book₁ := book_grab book empty head luck
  have hand : update other o (some pg) o = some pg := update_self _ _ _
  have first : mappages r 0 (.page pg) userPerm = mappages r (0 * PGSIZE) (.page pg) userPerm := by
    rw [Nat.zero_mul]
  change Ends (mappages r 0 (.page pg) userPerm) _ _ _
  rw [first]
  apply ends_better (mappages_user book₁ lives hand below (users.absent 0 (Nat.le_refl 0) below) userPerm)
  rintro ok vm' ⟨mapped, _⟩ yes
  obtain ⟨book₂, leaves⟩ := mapped yes
  rw [hand_back empty] at book₂
  exact ⟨book₂, pg, leaves.tables, leaves.leaf⟩

theorem booted_inv {kernel : List (Fin N)} (booted : Booted kernel s) : Inv (fun pg => decide (pg ∈ kernel)) s := by
  obtain ⟨s₀, fresh, res⟩ := booted
  have inv := inv_fresh fresh
  have ends : Ends userinit s₀ (fun mapped t => mapped = true → Inv (fun pg => decide (pg ∈ kernel)) t)
      (fun _ => True) := by
    unfold userinit
    apply ends_bind (allocproc_spec inv (List.finRange n))
    rintro found t (⟨rfl, _⟩ | ⟨np, _, inv', _, ⟨rfl, _⟩ | ⟨rfl, state, size⟩⟩)
    · exact ends_throw trivial
    · exact ends_throw trivial
    obtain ⟨r, f, table, frame, image⟩ := inv_used (q := np) inv' (by rw [state]; nofun)
    rw [size] at image
    refine get_then (followed_then table ?_)
    refine onVm_then (uvminit_spec (o := .hand) rfl inv'.held (live_of table) image.users) ?_
    intro mapped vm done
    refine modify_then (ends_pure fun yes => ?_)
    obtain ⟨book, pg, leaves⟩ := done yes
    have one : pages PGSIZE = 1 := by decide
    refine inv_update (x := (((t.proc np).setSize PGSIZE).setState .runnable).setRegs _) inv' (held_same book rfl rfl)
      (apart_same inv'.apart (.inl rfl)) ⟨nofun, fun _ => ⟨r, f, table, frame, ?_⟩⟩
      (inv_others inv' table leaves.tables) _
    rw [leaves.leaf]
    change Image _ f (pages PGSIZE)
    rw [one]
    refine ⟨users_map image.users (by decide) pg userPerm, fun v above => ?_⟩
    have pos : 0 < userTop := by decide
    rw [update_of_ne (by omega)]
    exact image.top v above
  exact ends_ok ends res rfl

end

end Xv6Table
