import Xv6.Lib.Runs
import Xv6.ProcTableSpec

/- What an event does to the fields of each process, whatever the memory is like. -/
namespace Xv6Table
open Outcome Xv6Vm Xv6 Function

section
variable {n N : Nat}
variable {x : Proc n N}

def Proc.built (pid : Int32) (frame root : Fin N) (x : Proc n N) : Proc n N :=
  ((x.named pid).newFrame frame).setTable (some root)

/-- exit of another process: a new parent, and a wakeup. -/
def Nudged (x y : Proc n N) : Prop :=
  ∃ parent, y = x.setParent parent ∨ (x.state = .sleeping ∧ y = (x.setParent parent).setState .runnable)

inductive Change (s : State n N) (e : Event n) : Proc n N → Proc n N → Prop where
  | same (x : Proc n N) : Change s e x x
  | failed {x : Proc n N} (unused : x.state = .unused) (regs : Xv6Proc.Trapframe) : Change s e x (x.freed.setRegs regs)
  | forked {x : Proc n N} (unused : x.state = .unused) (call : e.call = .fork) (pid : Int32) (frame root : Fin N) :
      Change s e x (Proc.forked e.p (s.proc e.p) (x.built pid frame root))
  | cloned {x : Proc n N} (unused : x.state = .unused) {junk : UInt64} (call : e.call = .clone junk)
      (success : ∃ np t, allocproc (List.finRange n) (s.setLuck e.luck) = .ok (some np, t)) (first : Proc n N)
      (size : Int32) (pid : Int32) (frame root : Fin N) :
      Change s e x (Proc.cloned e.p first (s.proc e.p).countThread junk size (x.built pid frame root))
  | counted {x : Proc n N} (used : x.state = .running) {junk : UInt64} (call : e.call = .clone junk)
      (success : ∃ np t, allocproc (List.finRange n) (s.setLuck e.luck) = .ok (some np, t)) :
      Change s e x x.countThread
  | memory {x : Proc n N} (used : x.state = .running) (table : Option (Fin N)) (sz : Nat)
      (regs : Xv6Proc.Trapframe) : Change s e x (((x.setTable table).setSize sz).setRegs regs)
  | user {x : Proc n N} (used : x.state = .running) (regs : Xv6Proc.Trapframe) (ofile : Fin nofile → Option Nat) :
      Change s e x ((x.setRegs regs).setFiles ofile)
  | state {x : Proc n N} (used : x.state = .running ∨ x.state = .runnable) {state : Xv6Proc.ProcState}
      (next : state = .running ∨ state = .runnable) : Change s e x (x.setState state)
  | awake {x : Proc n N} (used : x.state = .running) : Change s e x (x.setChan none)
  | asleep {x : Proc n N} (used : x.state = .running) (p : Fin n) : Change s e x ((x.setChan none).sleeps p)
  | reaped {x : Proc n N} (zombie : x.state = .zombie) (child : x.parent = some e.p) {addr : UInt64} {copied : Bool}
      (call : e.call = .wait addr copied) : Change s e x x.freed
  | exits {x y : Proc n N} (used : x.state = .running) (nudged : Nudged (x.setFiles fun _ => none) y)
      (status : Int32) : Change s e x (y.dies status)
  | nudged {x y : Proc n N} (nudged : Nudged x y) : Change s e x y
  | killed {x : Proc n N} (pid : Int32) (call : e.call = .kill pid) (has : x.pid = pid) : Change s e x x.kill

variable {s t : State n N} {e : Event n} {p q : Fin n} {A : Type}

abbrev Fields (c : K n N A) (s : State n N) (good : A → (Fin n → Proc n N) → Prop) : Prop :=
  Ends c s (fun a t => good a t.proc) fun _ => True

theorem onVm_fields (c : M N A) (s : State n N) : Fields (onVm c) s fun _ proc => proc = s.proc :=
  onVm_ends (ends_true c s.vm) fun _ _ _ => rfl

theorem followed_fields (found : Option (Fin N)) (s : State n N) :
    Fields (followed found) s fun _ proc => proc = s.proc := by
  cases found with
  | none => exact ends_throw trivial
  | some pg => exact ends_pure rfl

theorem freeproc_fields (p : Fin n) (s : State n N) :
    Fields (freeproc p) s fun _ proc => proc = update s.proc p (s.proc p).freed := by
  have frame : Fields (freeTrapframe (s.proc p).trapframe) s fun _ proc => proc = s.proc := by
    cases (s.proc p).trapframe with
    | none => exact ends_pure rfl
    | some pg => exact onVm_fields (kfree pg) s
  unfold freeproc
  refine get_then (ends_bind frame fun _ t first => ?_)
  have table : Fields (freePagetable (s.proc p).sz (s.proc p).pagetable) t fun _ proc => proc = t.proc := by
    cases (s.proc p).pagetable with
    | none => exact ends_pure rfl
    | some r => exact onVm_fields (procFreepagetable r _) t
  refine ends_bind table fun _ u snd => ends_known rfl ?_
  change update u.proc p (u.proc p).freed = _
  rw [snd, first]

def Failed (before after : Fin n → Proc n N) : Prop :=
  after = before ∨ ∃ np regs, (before np).state = .unused ∧
    after = Function.update before np ((before np).freed.setRegs regs)

def Built (before : Fin n → Proc n N) (pid : Int32) (np : Fin n) (after : Fin n → Proc n N) : Prop :=
  (before np).state = .unused ∧ ∃ frame root, after = Function.update before np ((before np).built pid frame root)

theorem set_after {base : Fin n → Proc n N} (procs : t.proc = update base p x)
    (f : Proc n N → Proc n N) : (t.set p f).proc = update base p (f x) := by
  simp [State.set, procs]

theorem freed_after {base after : Fin n → Proc n N} (procs : t.proc = update base p x)
    (freed : after = update t.proc p (t.proc p).freed) : after = update base p x.freed := by
  rw [freed, procs, update_idem, update_self]

theorem allocprocFound_fields (p : Fin n) (s : State n N) (unused : (s.proc p).state = .unused) :
    Fields (allocprocFound p) s fun found proc => (found = none ∧ Failed s.proc proc) ∨
      (found = some p ∧ Built s.proc s.nextpid p proc) := by
  unfold allocprocFound
  refine known_then (t := { s with nextpid := s.nextpid + 1 }) rfl (modify_then ?_)
  refine ends_bind (onVm_fields _ _) fun found t first => ?_
  cases found with
  | none =>
    refine modify_then (ends_bind (freeproc_fields p _) fun _ u snd => ends_pure (.inl ⟨rfl, .inr ?_⟩))
    have undone : u.proc = update s.proc p ((s.proc p).named s.nextpid).noFrame.freed :=
      freed_after (set_after first Proc.noFrame) snd
    exact ⟨p, (s.proc p).regs, unused, undone⟩
  | some frame =>
    have framed := set_after first (Proc.newFrame frame)
    refine modify_then (ends_bind (onVm_fields _ _) fun made u snd => ?_)
    have so_far := snd.trans framed
    cases made with
    | none =>
      refine modify_then (ends_bind (freeproc_fields p _) fun _ v third => ends_pure (.inl ⟨rfl, .inr ?_⟩))
      have undone : v.proc = update s.proc p
          ((((s.proc p).named s.nextpid).newFrame frame).setTable none).freed :=
        freed_after (set_after so_far (Proc.setTable none)) third
      exact ⟨p, Xv6Proc.junkTrapframe, unused, undone⟩
    | some root =>
      refine modify_then (ends_pure (.inr ⟨rfl, unused, frame, root, ?_⟩))
      exact set_after so_far (Proc.setTable (some root))

theorem allocproc_fields (slots : List (Fin n)) (s : State n N) : Fields (allocproc slots) s
    fun found proc => (found = none ∧ Failed s.proc proc) ∨ ∃ np, found = some np ∧ Built s.proc s.nextpid np proc := by
  induction slots with
  | nil => exact ends_pure (.inl ⟨rfl, .inl rfl⟩)
  | cons np rest ih =>
    refine get_then (ends_ite (fun unused => ?_) fun _ => ih)
    apply ends_better (allocprocFound_fields np s unused)
    exact fun found t => Or.imp_right fun built => ⟨np, built⟩

theorem fork_fields (p : Fin n) (s : State n N) (used : (s.proc p).state ≠ .unused) : Fields (fork p) s
    fun _ proc => Failed s.proc proc ∨ ∃ np frame root, (s.proc np).state = .unused ∧ proc =
      update s.proc np (Proc.forked p (s.proc p) ((s.proc np).built s.nextpid frame root)) := by
  unfold fork
  apply ends_bind (allocproc_fields _ s)
  rintro found t (⟨rfl, failed⟩ | ⟨np, rfl, unused, frame, root, built⟩)
  · exact ends_pure (.inl failed)
  have apart : p ≠ np := by
    rintro rfl
    exact used unused
  have caller : t.proc p = s.proc p := by
    rw [built]
    exact update_of_ne apart _ _
  unfold forkFound
  apply get_then
  rw [caller]
  refine ends_bind (followed_fields _ t) fun old t₁ same₁ => ends_bind (followed_fields _ t₁) fun new t₂ same₂ => ?_
  refine ends_bind (onVm_fields _ t₂) fun ok t₃ same₃ => ?_
  have so_far : t₃.proc = update s.proc np ((s.proc np).built s.nextpid frame root) := by
    rw [same₃, same₂, same₁, built]
  cases ok with
  | true =>
    refine modify_then (ends_pure (.inr ⟨np, frame, root, unused, ?_⟩))
    exact set_after so_far _
  | false =>
    refine ends_bind (freeproc_fields np _) fun _ u freed => ends_pure (.inl (.inr ?_))
    have undone := freed_after so_far freed
    exact ⟨np, Xv6Proc.junkTrapframe, unused, undone⟩

theorem clone_fields [NeZero n] (p : Fin n) (junk : UInt64) (s : State n N) (used : (s.proc p).state ≠ .unused) :
    Fields (sysClone p junk) s fun ret proc => (ret = -1 ∧ Failed s.proc proc) ∨
      (∃ np t, allocproc (List.finRange n) s = .ok (some np, t)) ∧ ret = s.nextpid ∧
      ∃ np frame root first, (s.proc np).state = .unused ∧ (0 ≠ np → first.pagetable = (s.proc 0).pagetable) ∧
        proc = update (update s.proc p (s.proc p).countThread) np (Proc.cloned p first
          (s.proc p).countThread junk (a1 (s.proc p).regs).toUInt32.toInt32
            ((s.proc np).built s.nextpid frame root)) := by
  unfold sysClone clone
  refine get_then (ends_bind (ends_result (allocproc_fields _ s)) ?_)
  rintro found t ⟨⟨rfl, failed⟩ | ⟨np, rfl, unused, frame, root, built⟩, res⟩
  · exact ends_pure (.inl ⟨rfl, failed⟩)
  have apart : p ≠ np := by
    rintro rfl
    exact used unused
  have caller : t.proc p = s.proc p := by
    rw [built]
    exact update_of_ne apart _ _
  have counted : (t.set p Proc.countThread).proc = update (update s.proc p
      (s.proc p).countThread) np ((s.proc np).built s.nextpid frame root) := by
    change update t.proc p (t.proc p).countThread = _
    rw [caller, built, update_comm apart]
  have self : (t.set p Proc.countThread).proc p = (s.proc p).countThread := by
    rw [set_proc_self, caller]
  have child : (t.set p Proc.countThread).proc np = (s.proc np).built s.nextpid frame root := by
    rw [counted, update_self]
  unfold cloneFound
  refine modify_then (get_then (modify_then (ends_pure (.inr ⟨⟨np, t, res⟩, ?_, np, frame, root,
    (t.set p Proc.countThread).proc 0, unused, fun zero => ?_, ?_⟩))))
  · rw [child]
    rfl
  · rw [counted, update_of_ne zero]
    by_cases here : (0 : Fin n) = p
    · rw [here, update_self, Proc.countThread]
      split <;> rfl
    · rw [update_of_ne here]
  · rw [set_after counted, self]

theorem growproc_fields (p : Fin n) (k : Int32) (s : State n N) : Fields (growproc p k) s
    fun _ proc => proc = s.proc ∨ ∃ sz, proc = update s.proc p ((s.proc p).setSize sz) := by
  have sets : ∀ {t : State n N} (sz : Nat), t.proc = s.proc → Fields (setProc p (Proc.setSize sz) >>= fun _ => pure (0 : Int32)) t
      fun _ proc => proc = s.proc ∨ ∃ sz, proc = update s.proc p ((s.proc p).setSize sz) := by
    intro t sz same
    refine modify_then (ends_pure (.inr ⟨sz, ?_⟩))
    change update t.proc p ((t.proc p).setSize sz) = _
    rw [same]
  unfold growproc
  refine get_then (ends_ite (fun _ => ?_) fun _ => ends_ite (fun _ => ?_) fun _ => sets _ rfl)
  · refine ends_bind (followed_fields _ s) fun root t same => ends_bind (onVm_fields _ t) fun grown u same' => ?_
    exact ends_ite (fun _ => ends_pure (.inl (same'.trans same))) fun _ => sets _ (same'.trans same)
  refine ends_bind (followed_fields _ s) fun root t same => ends_bind (onVm_fields _ t) fun shrunk u same' => ?_
  exact sets _ (same'.trans same)

theorem exec_fields (p : Fin n) (file : Program) (argc : Nat) (s : State n N) : Fields (exec p file argc) s
    fun _ proc => proc = s.proc ∨ ∃ root sz regs, proc =
      update s.proc p ((((s.proc p).setTable (some root)).setSize sz).setRegs regs) := by
  unfold exec
  refine ends_ite (fun _ => ends_pure (.inl rfl)) fun _ => get_then ?_
  refine ends_bind (followed_fields _ s) fun frame t same => ends_bind (onVm_fields _ t) fun made u same' => ?_
  have so_far := same'.trans same
  cases made with
  | none => exact ends_pure (.inl so_far)
  | some pair =>
    refine ends_bind (followed_fields _ u) fun old v same'' => modify_then ?_
    refine ends_bind (onVm_fields _ _) fun _ w last => ends_pure (.inr ⟨pair.1, pair.2, execRegs file (s.proc p).regs, ?_⟩)
    rw [last]
    change update v.proc p (((v.proc p).setTable (some pair.1)).setSize pair.2 |>.setRegs
      (execRegs file (v.proc p).regs)) = _
    rw [same'', so_far]

theorem sysExec_fields (p : Fin n) (args : List Bool) (ends : Bool) (file : Program) (s : State n N) :
    Fields (sysExec p args ends file) s fun _ proc => proc = s.proc ∨ ∃ root sz regs, proc =
      update s.proc p ((((s.proc p).setTable (some root)).setSize sz).setRegs regs) := by
  unfold sysExec
  refine ends_bind (onVm_fields _ s) fun pages t same => ?_
  have frees : ∀ (pages : List (Fin N)) (ret : Int32) (u : State n N), Fields (do
      onVm (freeArgs pages)
      pure ret) u fun _ proc => proc = u.proc := by
    intro pages ret u
    exact ends_bind (onVm_fields _ u) fun _ v last => ends_pure last
  refine ends_ite (fun _ => ?_) fun _ => ends_better (frees _ _ t) fun _ v last => .inl (last.trans same)
  refine ends_bind (exec_fields p file _ t) fun ret u done => ?_
  refine ends_better (frees _ ret u) fun _ v last => ?_
  rw [last, ← same]
  exact done

/- exit. -/

theorem nudged_refl (x : Proc n N) : Nudged x x := ⟨x.parent, .inl rfl⟩

theorem nudged_trans {x y z : Proc n N} (first : Nudged x y) (snd : Nudged y z) : Nudged x z := by
  obtain ⟨a, rfl | ⟨sleeps, rfl⟩⟩ := first
  · obtain ⟨b, rfl | ⟨sleeps, rfl⟩⟩ := snd
    · exact ⟨b, .inl rfl⟩
    · exact ⟨b, .inr ⟨sleeps, rfl⟩⟩
  obtain ⟨b, rfl | ⟨absurd, _⟩⟩ := snd
  · exact ⟨b, .inr ⟨sleeps, rfl⟩⟩
  · cases absurd

theorem wakeup_fields (p : Fin n) (chan : Option (Fin n)) (s : State n N) :
    Fields (wakeup p chan) s fun _ proc => ∀ q, Nudged (s.proc q) (proc q) := by
  refine ends_better (wakeup_spec s p chan) fun _ t done q => ?_
  rcases done.2 q with same | ⟨_, sleeps, woken⟩
  · rw [same]
    exact nudged_refl _
  · exact ⟨(s.proc q).parent, .inr ⟨sleeps, woken⟩⟩

theorem reparent_fields [NeZero n] (p : Fin n) (slots : List (Fin n)) (s : State n N) :
    Fields (reparent p slots) s fun _ proc => ∀ q, Nudged (s.proc q) (proc q) := by
  induction slots generalizing s with
  | nil => exact ends_pure fun q => nudged_refl _
  | cons pp rest ih =>
    refine get_then (ends_ite (fun _ => modify_then ?_) fun _ => ih s)
    have first : ∀ q, Nudged (s.proc q) ((s.set pp (Proc.setParent (some 0))).proc q) := by
      intro q
      by_cases here : q = pp
      · rw [here, set_proc_self]
        exact ⟨some 0, .inl rfl⟩
      rw [set_proc_other s _ here]
      exact nudged_refl _
    refine ends_bind (wakeup_fields p (some 0) _) fun _ t snd => ?_
    refine ends_better (ih t) fun _ u third q => ?_
    exact nudged_trans (first q) (nudged_trans (snd q) (third q))

theorem exit_fields [NeZero n] (p : Fin n) (status : Int32) (s : State n N) : Fields (exit p status) s
    fun _ proc => (∃ y, Nudged ((s.proc p).setFiles fun _ => none) y ∧ proc p = y.dies status) ∧
      ∀ q, q ≠ p → Nudged (s.proc q) (proc q) := by
  unfold exit
  refine ends_ite (fun _ => ends_throw trivial) fun _ => modify_then ?_
  refine ends_bind (reparent_fields p (List.finRange n) _) fun _ t snd => get_then ?_
  refine ends_bind (wakeup_fields p (t.proc p).parent t) fun _ u third => ends_known rfl ⟨⟨u.proc p, ?_, ?_⟩, ?_⟩
  · have nudged := nudged_trans (snd p) (third p)
    rw [set_proc_self] at nudged
    exact nudged
  · exact set_proc_self u p _
  intro q away
  rw [set_proc_other u _ away]
  have nudged := nudged_trans (snd q) (third q)
  rw [set_proc_other s _ away] at nudged
  exact nudged

/- wait and kill. -/

theorem waitScan_fields (p : Fin n) (addr : UInt64) (copied havekids : Bool) (slots : List (Fin n)) (s : State n N) :
    Fields (waitScan p addr copied havekids slots) s fun res proc => proc = s.proc ∨ ((∃ ret, res = .inl ret) ∧
      ∃ np, (s.proc np).parent = some p ∧ (s.proc np).state = .zombie ∧ proc = update s.proc np (s.proc np).freed) := by
  induction slots generalizing havekids with
  | nil => exact ends_pure (.inl rfl)
  | cons np rest ih =>
    refine get_then (ends_ite (fun child => ends_ite (fun zombie => ends_ite (fun _ => ends_pure (.inl rfl))
      fun _ => ?_) fun _ => ih true) fun _ => ih havekids)
    exact ends_bind (freeproc_fields np s) fun _ t freed => ends_pure (.inr ⟨⟨_, rfl⟩, np, child, zombie, freed⟩)

theorem kill_fields (pid : Int32) (slots : List (Fin n)) (s : State n N) : Fields (kill pid slots) s
    fun _ proc => proc = s.proc ∨ ∃ q, (s.proc q).pid = pid ∧ proc = update s.proc q (s.proc q).kill := by
  induction slots with
  | nil => exact ends_pure (.inl rfl)
  | cons q rest ih => exact get_then (ends_ite (fun has => modify_then (ends_pure (.inr ⟨q, has, rfl⟩))) fun _ => ih)

/- Any event. -/

theorem change_update {prev after : Fin n → Proc n N} (procs : after = update prev p x)
    (change : Change s e (prev p) x) : ∀ q, Change s e (prev q) (after q) := by
  intro q
  rw [procs]
  by_cases here : q = p
  · rw [here, update_self]
    exact change
  rw [update_of_ne here]
  exact .same _

theorem change_failed {prev after : Fin n → Proc n N} (failed : Failed prev after) :
    ∀ q, Change s e (prev q) (after q) := by
  rcases failed with rfl | ⟨np, regs, unused, procs⟩
  · exact fun q => .same _
  · exact change_update procs (.failed unused regs)

theorem discard_fields {c : K n N A} {holds : (Fin n → Proc n N) → Prop} (fields : Fields c s fun _ proc => holds proc) :
    Fields (discard c) s fun _ proc => holds proc := ends_discard fields

theorem able_running {call : Call} (able : call.able x = true) (calls : call ≠ .schedule) : x.state = .running := by
  cases call with
  | schedule => exact (calls rfl).elim
  | wait addr copied => exact of_decide_eq_true able
  | fork | clone | exec | sbrk | exit | kill | user | yield =>
    exact of_decide_eq_true (Bool.and_eq_true_iff.mp able).1

theorem event_changes [NeZero n] (step : next s e = some t) (q : Fin n) : Change s e (s.proc q) (t.proc q) := by
  unfold next at step
  split at step
  case isFalse => cases step
  case isTrue able =>
  have used : (s.proc e.p).state ≠ .unused := able_used able
  have outcome : Fields (e.call.code e.p) (s.setLuck e.luck) fun _ proc => ∀ q, Change s e (s.proc q) (proc q) := by
    cases call : e.call with
    | fork =>
      refine discard_fields (ends_better (fork_fields e.p (s.setLuck e.luck) used) (fun _ u done => ?_))
      rcases done with failed | ⟨np, frame, root, unused, procs⟩
      · exact change_failed failed
      · exact change_update procs (.forked unused call _ frame root)
    | clone junk =>
      refine discard_fields (ends_better (clone_fields e.p junk (s.setLuck e.luck) used) (fun _ u done => ?_))
      rcases done with ⟨_, failed⟩ | ⟨success, _, np, frame, root, first, unused, _, procs⟩
      · exact change_failed failed
      have running := able_running able (by rw [call]; nofun)
      intro q
      rw [procs]
      by_cases child : q = np
      · rw [child, update_self]
        exact .cloned unused call success first _ _ frame root
      rw [update_of_ne child]
      by_cases caller : q = e.p
      · rw [caller, update_self]
        exact .counted running call success
      rw [update_of_ne caller]
      exact .same _
    | exec args ends file =>
      have running := able_running able (by rw [call]; nofun)
      refine discard_fields (ends_better (sysExec_fields e.p args ends file (s.setLuck e.luck))
        (fun _ u done => ?_))
      rcases done with same | ⟨root, sz, regs, procs⟩
      · rw [same]
        exact fun q => .same _
      · exact change_update procs (.memory running (some root) sz regs)
    | sbrk k =>
      have running := able_running able (by rw [call]; nofun)
      refine discard_fields (get_then (ends_bind (growproc_fields e.p k (s.setLuck e.luck)) fun ret u done => ?_))
      have changes : ∀ q, Change s e (s.proc q) (u.proc q) := by
        rcases done with same | ⟨sz, procs⟩
        · rw [same]
          exact fun q => .same _
        · exact change_update procs (.memory running (s.proc e.p).pagetable sz (s.proc e.p).regs)
      exact ends_ite (fun _ => ends_pure changes) fun _ => ends_pure changes
    | exit status =>
      have running := able_running able (by rw [call]; nofun)
      refine ends_better (exit_fields e.p status (s.setLuck e.luck)) fun _ u done q => ?_
      obtain ⟨⟨y, nudged, res⟩, others⟩ := done
      by_cases caller : q = e.p
      · rw [caller, res]
        exact .exits running nudged status
      · exact .nudged (others q caller)
    | wait addr copied =>
      have running := able_running able (by rw [call]; nofun)
      refine discard_fields (modify_then ?_)
      unfold waitPass
      have base : ((s.setLuck e.luck).set e.p (Proc.setChan none)).proc =
        update s.proc e.p ((s.proc e.p).setChan none) := rfl
      refine ends_bind (waitScan_fields e.p addr copied false (List.finRange n) _) fun res u done => ?_
      have scanned : ∀ q, Change s e (s.proc q) (u.proc q) := by
        rcases done with same | ⟨_, np, child, zombie, procs⟩
        · exact change_update (same.trans base) (.awake running)
        have apart : np ≠ e.p := by
          rintro rfl
          rw [set_proc_self] at zombie
          exact absurd (running.symm.trans zombie) nofun
        have here : ((s.setLuck e.luck).set e.p (Proc.setChan none)).proc np = s.proc np := set_proc_other _ _ apart
        rw [here] at child zombie procs
        intro q
        rw [procs, base]
        by_cases dead : q = np
        · rw [dead, update_self]
          exact .reaped zombie child call
        rw [update_of_ne dead]
        exact change_update rfl (.awake running) q
      cases res with
      | inl ret => exact ends_pure scanned
      | inr havekids =>
        refine get_then (ends_ite (fun _ => ends_pure scanned) fun _ => modify_then (ends_pure ?_))
        have same : u.proc = update s.proc e.p ((s.proc e.p).setChan none) := by
          rcases done with same | ⟨⟨_, absurd⟩, _⟩
          · exact same.trans base
          · cases absurd
        exact change_update (set_after same (Proc.sleeps e.p)) (.asleep running e.p)
    | kill pid =>
      refine discard_fields (ends_better (kill_fields pid (List.finRange n) (s.setLuck e.luck))
        (fun _ u done => ?_))
      rcases done with same | ⟨np, has, procs⟩
      · rw [same]
        exact fun q => .same _
      · exact change_update procs (.killed pid call has)
    | user regs ofile =>
      have running := able_running able (by rw [call]; nofun)
      exact ends_known rfl (change_update rfl (.user running regs ofile))
    | yield =>
      have running := able_running able (by rw [call]; nofun)
      exact ends_known rfl (change_update rfl (.state (.inl running) (.inr rfl)))
    | schedule =>
      have runnable : (s.proc e.p).state = .runnable := by
        rw [call] at able
        exact of_decide_eq_true able
      exact ends_known rfl (change_update rfl (.state (.inr runnable) (.inl rfl)))
  split at step
  case h_2 => cases step
  case h_1 u res =>
  obtain rfl := Option.some.inj step
  exact ends_ok outcome res q

theorem booted_fields {kernel : List (Fin N)} (booted : Booted kernel s) (q : Fin n) : s.proc q = Proc.zero ∨
    ∃ pid frame root regs, s.proc q =
      (((Proc.zero.built pid frame root).setSize PGSIZE).setState .runnable).setRegs regs := by
  obtain ⟨s₀, fresh, res⟩ := booted
  have zero : ∀ q, s₀.proc q = Proc.zero := fun q => by rw [fresh.proc]
  have ends : Fields userinit s₀ fun _ proc => proc q = Proc.zero ∨ ∃ pid frame root regs, proc q =
      (((Proc.zero.built pid frame root).setSize PGSIZE).setState .runnable).setRegs regs := by
    unfold userinit
    apply ends_bind (allocproc_fields _ s₀)
    rintro found t (⟨rfl, _⟩ | ⟨np, rfl, _, frame, root, built⟩)
    · exact ends_throw trivial
    refine get_then (ends_bind (followed_fields _ t) fun r u same => ends_bind (onVm_fields _ u) fun ok v same' => ?_)
    refine modify_then (ends_pure ?_)
    have so_far := (same'.trans same).trans built
    rw [zero np] at so_far
    rw [set_after so_far]
    beta_reduce
    by_cases here : q = np
    · rw [here, update_self]
      exact .inr ⟨_, frame, root, _, rfl⟩
    rw [update_of_ne here]
    exact .inl (zero q)
  have done := ends_ok ends res
  exact done

/- Runs of events. -/

abbrev TableRun [NeZero n] (cond : State n N → Event n → Prop) (s₀ : State n N) (es : List (Event n)) (s : State n N) :
    Prop :=
  Runs.Run (Runs.Guarded (fun s e t => next s e = some t) cond) s₀ es s

theorem run_each [NeZero n] {cond : State n N → Event n → Prop} (holds : Proc n N → Prop) {s₀ : State n N}
    {es : List (Event n)} (start : ∀ q, holds (s₀.proc q))
    (keep : ∀ s e, cond s e → ∀ q y, Change s e (s.proc q) y → holds (s.proc q) → holds y)
    (run : TableRun cond s₀ es s) : ∀ q, holds (s.proc q) := by
  refine Runs.run_invariant (fun s => ∀ q, holds (s.proc q)) start ?_ run
  rintro s e t inv ⟨meets, step⟩ q
  exact keep s e meets q _ (event_changes step q) (inv q)

end

end Xv6Table
