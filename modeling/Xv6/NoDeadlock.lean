import Xv6.CallBalance
import Xv6.Lib.Acyclic

/- Processes that wait for each other's inode locks. Who waits holds only directories above the
   inode it waits for, as long as create locks the inode that its ialloc took. -/
namespace Xv6Conc
open Xv6 Xv6Fs Threads Prog
set_option linter.unusedSectionVars false

section
variable {T : Type} [Fintype T] [DecidableEq T]

def Op.wants (s : Shared T) : Op → Option Ip
  | .lock ip => some ip
  | .test ip => if (s.entry ip).Frees then some ip else none
  | _ => none

def wanted (c : Config T Op Ans (Shared T) (Hold × Know)) (p : T) : Option Ip :=
  match c.code p with
  | .op o _ => o.wants c.state
  | .ret _ => none

def Waits (c : Config T Op Ans (Shared T) (Hold × Know)) (p q : T) : Prop :=
  ∃ ip, wanted c p = some ip ∧ (c.state.entry ip).holder = some q

def Forest (s : Shared T) : Prop := ∀ i, ¬ Relation.TransGen (Edge s) i i

/-- A state between calls on a file system with the number of inodes. -/
structure Mounted (ninodes : Nat) (s : Shared T) : Prop where
  between : Between s
  forest : Forest s
  inums : ∀ ip, 0 < (s.entry ip).ref → (s.entry ip).ino.inum < ninodes
  -- sys_open gives no descriptor for writing to a directory
  files : ∀ f ip, Writes (s.ftable f) ip → s.typeOf ip ≠ tDir ∧ s.typeOf ip ≠ 0

variable {s : Shared T} {ninodes : Nat}

theorem forest_rank (forest : Forest s) : ∃ (rank : Ino → Nat) (b : Nat), (∀ i, rank i ≤ b) ∧
    ∀ d j, Edge s d j → rank d < rank j := by
  -- an entry names an inode of its directory's device, by a number of 16 bits
  let above : Ino → Finset Ino := fun i => (Finset.range 0x10000).image fun n => ⟨i.dev, n⟩
  have same : ∀ d j, Edge s d j → above d = above j := by
    rintro d j ⟨-, -, e, -, -, -, rfl⟩
    rfl
  have found : ∀ d j k, Edge s d j → Edge s j k → j ∈ above k := by
    rintro d j k ⟨-, -, e, -, -, -, rfl⟩ ⟨-, -, e', -, -, -, rfl⟩
    refine Finset.mem_image.mpr ⟨e.inum.toNat, ?_, rfl⟩
    exact Finset.mem_range.mpr e.inum.toNat_lt
  have bound : ∀ i, (above i).card ≤ 0x10000 := fun i =>
    Finset.card_image_le.trans (Finset.card_range _).le
  obtain ⟨rank, bound, grows⟩ := Acyclic.bounded_rank forest above 0x10000 same found bound
  exact ⟨rank, _, bound, grows⟩

theorem ranked_mounted (mounted : Mounted ninodes s) (small : ninodes ≤ 0x10000) : Ranked s (restLedger s) := by
  obtain ⟨rank, b, bound, grows⟩ := forest_rank mounted.forest
  have settled : ∀ ip, Steady (restLedger s) ip := fun ip u => .inl rfl
  refine ⟨base_between mounted.between, rank, b, ?_, bound, grows, ?_, ?_, ?_, ?_⟩
  · intro ip live
    exact (mounted.inums ip live).trans_le small
  · intro t dp i seen
    exact seen.elim
  · intro t ip i known
    cases known
  · intro t ip known
    exact absurd rfl known
  intro f ip writes
  exact ⟨settled ip, mounted.files f ip writes⟩

theorem waits_above {c : Config T Op Ans (Shared T) (Hold × Know)} {rank : Ino → Nat} {b : Nat}
    {p : T} {dp ip : Ip} (order : Order c.state c.ledger rank b)
    (ok : (callRules (T := T) True).allows p (.lock ip) (c.ledger p))
    (held : ((c.ledger p).1.cell dp).held ≠ .no) : c.state.typeOf dp = tDir ∧
      (c.state.typeOf ip = tDir → rank (c.state.entry dp).ino < rank (c.state.entry ip).ino) := by
  obtain ⟨i, known, seen⟩ := ok.2 trivial dp held
  obtain ⟨-, here⟩ := order.ino p ip i known
  obtain ⟨-, -, dir, above⟩ := order.seen p dp i seen
  subst here
  exact ⟨dir, above⟩

theorem waits_lock {c : Config T Op Ans (Shared T) (Hold × Know)} {rest : T → Hold × Know → Prop}
    (safe : Safe (callRules True) Ranked rest c) {p q : T} (waits : Waits c p q) :
    ∃ ip k, c.code p = .op (.lock ip) k ∧ (c.state.entry ip).holder = some q := by
  obtain ⟨ip, wants, holder⟩ := waits
  unfold wanted at wants
  cases next : c.code p with
  | ret a =>
    rw [next] at wants
    cases wants
  | op o k =>
    rw [next] at wants
    cases o <;> simp only [Op.wants, Option.some.injEq, reduceCtorEq] at wants
    case lock jp =>
      subst wants
      exact ⟨jp, k, rfl, holder⟩
    case test jp =>
      split at wants
      · rename_i frees
        cases wants
        obtain ⟨-, mine, locked⟩ := (safe_allows safe next).1
        have free := test_alone safe.inv.base mine locked frees.1
        rw [free] at holder
        cases holder
      · cases wants

/-- The calls in any interleaving, as long as create locks the inode that its ialloc took with the
    type that ialloc gave it: no process waits for itself through any chain of others. -/
theorem no_deadlock (small : ninodes ≤ 0x10000) {s₀ : Shared T} (mounted : Mounted ninodes s₀)
    {es : List (Event T FsCall)} {c : Config T Op Ans (Shared T) (Hold × Know)}
    (run : Runs.Run (Runs.Guarded (Step (callRules True) fun _ : T => FsCall.run ninodes)
      (Meets KeepsType)) (atRest s₀) es c) (p : T) : ¬ Relation.TransGen (Waits c) p p := by
  have safe : Safe (callRules True) Ranked (fun _ => Rest) c := by
    refine safe_guarded ranked_sound (fun t call l idle => call_rest (fun _ => small) call idle) ?_ run
    exact ⟨ranked_mounted mounted small, fun t => rest_ledger s₀ t⟩
  obtain ⟨rank, b, order⟩ := safe.inv.order
  apply Acyclic.no_cycle fun q => match c.code q with
    | .op (.lock ip) _ => rank (c.state.entry ip).ino
    | _ => 0
  intro q u v w first second third
  obtain ⟨ip, _, code, holder⟩ := waits_lock safe first
  obtain ⟨jp, _, code', holder'⟩ := waits_lock safe second
  obtain ⟨kp, _, code'', -⟩ := waits_lock safe third
  have mine := ((safe.inv.base.cells ip).holder u).mp holder
  have next := ((safe.inv.base.cells jp).holder v).mp holder'
  simp only [code, code']
  exact (waits_above order (safe_allows safe code') mine).2
    (waits_above order (safe_allows safe code'') next).1

/-- In the same runs no directory comes to be below itself. -/
theorem directories_acyclic (small : ninodes ≤ 0x10000) {s₀ : Shared T} (mounted : Mounted ninodes s₀)
    {es : List (Event T FsCall)} {c : Config T Op Ans (Shared T) (Hold × Know)}
    (run : Runs.Run (Runs.Guarded (Step (callRules True) fun _ : T => FsCall.run ninodes)
      (Meets KeepsType)) (atRest s₀) es c) : Forest c.state := by
  have safe : Safe (callRules True) Ranked (fun _ => Rest) c := by
    refine safe_guarded ranked_sound (fun t call l idle => call_rest (fun _ => small) call idle) ?_ run
    exact ⟨ranked_mounted mounted small, fun t => rest_ledger s₀ t⟩
  obtain ⟨rank, b, order⟩ := safe.inv.order
  exact Acyclic.no_cycle rank fun d j _ _ edge _ _ => order.edges d j edge

end

def tree : Shared (Fin 3) where
  outstanding := 0
  entry := fun ip => ⟨⟨rootDev, if ip = 0 then 3 else if ip = 1 then 4 else 1⟩,
    if ip < 3 then 1 else 0, false, none, blankDinode 0⟩
  disk := fun i => if i.dev = rootDev ∧ 1 ≤ i.inum ∧ i.inum ≤ 4 then
      (blankDinode tDir).setNlink (if i.inum = 1 then 3 else if i.inum = 2 then 2 else 1)
    else blankDinode 0
  ents := fun i =>
    if i = ⟨rootDev, 1⟩ then [⟨1, dot⟩, ⟨1, dotdot⟩, ⟨2, [97]⟩, ⟨4, [99]⟩]
    else if i = ⟨rootDev, 2⟩ then [⟨2, dot⟩, ⟨1, dotdot⟩, ⟨3, [98]⟩]
    else if i = ⟨rootDev, 3⟩ then [⟨3, dot⟩, ⟨2, dotdot⟩]
    else if i = ⟨rootDev, 4⟩ then [⟨4, dot⟩, ⟨1, dotdot⟩]
    else []
  ftable := fun _ => ⟨.none, 0, false, false, 0, 0, 0⟩
  ofile := fun _ _ => none
  cwd := fun t => if t = 0 then 0 else if t = 1 then 1 else 2

theorem between_tree : Between tree where
  unique := by decide +kernel
  refs := by
    intro ip
    have none : fileRefs tree.ftable ip = 0 := by
      simp [fileRefs, tally, Finset.sum_apply, tree, File.inode, oneOf_none]
    rw [none]
    revert ip
    decide +kernel
  unlocked := fun _ => rfl
  synced := fun _ _ valid => by cases valid
  files := by simp [tree, fdsOf]
  closed := fun _ _ => rfl
  outstanding := rfl

theorem mounted_tree : Mounted 8 tree where
  between := between_tree
  forest := by
    apply Acyclic.no_cycle Ino.inum
    rintro d j - - ⟨-, -, e, entry, used, name, rfl⟩ - -
    have dots : Dots dot ∧ Dots dotdot := by decide
    simp only [tree] at entry
    split_ifs at entry
    · rcases List.mem_cons.mp entry with rfl | entry
      · exact absurd dots.1 name
      rcases List.mem_cons.mp entry with rfl | entry
      · exact absurd dots.2 name
      simp at entry
      rcases entry with rfl | rfl <;> simp_all
    · rcases List.mem_cons.mp entry with rfl | entry
      · exact absurd dots.1 name
      rcases List.mem_cons.mp entry with rfl | entry
      · exact absurd dots.2 name
      simp at entry
      simp_all
    · simp at entry
      rcases entry with rfl | rfl <;> simp_all
    · simp at entry
      rcases entry with rfl | rfl <;> simp_all
    · simp at entry
  inums := by decide +kernel
  files := by
    rintro f ip ⟨inode, -⟩
    simp [tree, File.inode] at inode

def keepsType (c : Config (Fin 3) Op Ans (Shared (Fin 3)) (Hold × Know)) :
    Event (Fin 3) FsCall → Bool
  | .start _ _ => true
  | .step t => match c.code t with
    | .op (.load ip) _ => match (c.ledger t).2.fresh with
      | some (i, type) => (c.state.entry ip).ino = i → c.state.typeOf ip = type
      | none => true
    | _ => true

theorem keepsType_meets {c : Config (Fin 3) Op Ans (Shared (Fin 3)) (Hold × Know)}
    {e : Event (Fin 3) FsCall} (computed : keepsType c e = true) : Meets KeepsType c e := by
  cases e with
  | start t what => trivial
  | step t =>
    intro o k next
    cases o
    case load ip =>
      intro i type fresh
      simp only [keepsType, next, fresh] at computed
      exact of_decide_eq_true computed
    all_goals trivial

def keepingNext (c : Config (Fin 3) Op Ans (Shared (Fin 3)) (Hold × Know)) (e : Event (Fin 3) FsCall) :
    Option (Config (Fin 3) Op Ans (Shared (Fin 3)) (Hold × Know)) :=
  if keepsType c e then stepNext (callRules True) next (fun _ => FsCall.run 8) c e else none

def twoInC : List (Event (Fin 3) FsCall) :=
  .start 1 (.open (some [102]) (oCreate ||| oRdWr)) :: List.replicate 20 (.step 1) ++
  .start 2 (.unlink (some [99, 47, 102])) :: List.replicate 10 (.step 2)

def afterTwo : Config (Fin 3) Op Ans (Shared (Fin 3)) (Hold × Know) :=
  Runs.after keepingNext (atRest tree) twoInC

theorem no_deadlock_two : Waits afterTwo 2 1 ∧ ¬ Relation.TransGen (Waits afterTwo) 2 2 := by
  have real : ∀ c e d, keepingNext c e = some d → Runs.Guarded
      (Step (callRules True) fun _ : Fin 3 => FsCall.run 8) (Meets KeepsType) c e d := by
    intro c e d done
    unfold keepingNext at done
    split at done
    · rename_i keeps
      exact ⟨keepsType_meets keeps, stepNext_step next_exec _ c e d done⟩
    · cases done
  have wants : wanted afterTwo 2 = some 1 := by decide +kernel
  have holder : (afterTwo.state.entry 1).holder = some 1 := by decide +kernel
  exact ⟨⟨1, wants, holder⟩, no_deadlock (by decide) mounted_tree (Runs.run_after real (by decide +kernel)) 2⟩

theorem keepingNext_keeps : ∀ c e d, keepingNext c e = some d →
    Runs.Guarded (Step (callRules True) fun _ : Fin 3 => FsCall.run 8) (Meets KeepsType) c e d := by
  intro c e d done
  unfold keepingNext at done
  split at done
  · rename_i keeps
    exact ⟨keepsType_meets keeps, stepNext_step next_exec _ c e d done⟩
  · cases done

theorem directories_acyclic_two : wanted afterTwo 2 = some 1 ∧ Forest afterTwo.state :=
  ⟨by decide +kernel, directories_acyclic (by decide) mounted_tree (Runs.run_after keepingNext_keeps (by decide +kernel))⟩

/-- The directory /a goes while process 0 is below it. Process 1 gets its inode number for a
    file, process 0 meets the file behind ".." and frees it, process 2 gets the number for a
    directory. Process 1 has then a directory open for writing, and writes an entry into it
    that names the directory itself. -/
def stolenInode : List (Event (Fin 3) FsCall) :=
  .start 0 (.unlink (some [46, 46, 47, 98])) :: List.replicate 34 (.step 0) ++
  .start 0 (.unlink (some [47, 97])) :: List.replicate 31 (.step 0) ++
  .start 1 (.open (some [102]) (oCreate ||| oRdWr)) :: List.replicate 13 (.step 1) ++
  .start 0 (.chdir (some [46, 46])) :: List.replicate 21 (.step 0) ++
  .start 2 (.mkdir (some [100])) :: List.replicate 13 (.step 2) ++
  List.replicate 16 (.step 1) ++
  .start 1 (.write (some 0) [[⟨2, [121]⟩]]) :: List.replicate 8 (.step 1) ++
  .start 1 (.unlink (some [102, 47, 121])) :: List.replicate 18 (.step 1)

def afterStolen : Config (Fin 3) Op Ans (Shared (Fin 3)) (Hold × Know) :=
  Runs.after (stepNext (callRules True) next fun _ => FsCall.run 8) (atRest tree) stolenInode

theorem stolen_inode_deadlocks : ¬ ∀ (ninodes : Nat) (s : Shared (Fin 3)) (es : List (Event (Fin 3) FsCall))
    (c : Config (Fin 3) Op Ans (Shared (Fin 3)) (Hold × Know)) (p : Fin 3), Mounted ninodes s →
    Runs.Run (Step (callRules True) fun _ : Fin 3 => FsCall.run ninodes) (atRest s) es c →
    ¬ Relation.TransGen (Waits c) p p := by
  intro claimed
  have run : Runs.Run (Step (callRules True) fun _ => FsCall.run 8) (atRest tree) stolenInode afterStolen :=
    Runs.run_after (stepNext_step next_exec _) (by decide +kernel)
  have wants : wanted afterStolen 1 = some 3 := by decide +kernel
  have holder : (afterStolen.state.entry 3).holder = some 1 := by decide +kernel
  exact claimed 8 tree stolenInode afterStolen 1 mounted_tree run (.single ⟨3, wants, holder⟩)

end Xv6Conc
