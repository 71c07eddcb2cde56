import Xv6.CommitHistory

/- Is the space begin_op reserves enough for log_write? The admission test lets the
   operations of a transaction share LOGSIZE = 30 blocks. log_write, with the log that
   mkfs makes, refuses at 29 already listed, and asks before it looks for absorption. -/
namespace Xv6GroupCommit
open Xv6 Runs

set_option linter.unusedSectionVars false

variable {P : Type} [DecidableEq P]

def opBlocks (s : Sys P) (p : P) : Finset UInt32 := ((s.hist.current p).map Prod.fst).toFinset

/- The header lists the distinct blocks of the open transaction. -/
structure Listed (s : Sys P) : Prop where
  distinct : s.log.lh.block.Nodup
  blocks : s.log.committing = false → s.log.lh.block.toFinset = s.hist.txnBlocks
  cleared : ∀ p pc, s.log.pos p = .commit pc → pc = .eraseHead ∨ pc = .finish →
    s.log.lh.block = []
  idle : s.log.committing = false → s.log.outstanding = 0 → s.log.lh.block = []

theorem listed_init (size : Nat) : Listed (.init size : Sys P) := by
  constructor <;> simp [Sys.init, Log.init, LogHeader.empty, History.init]

variable {s : Sys P} {p : P} {e : Event P} {l' : Log P} {b : UInt32} {pc : CommitPc} {l : Log P}

theorem listed_beginOp (listed : Listed s) (counted : Counted s.log) (p : P) :
    Listed ⟨beginOp s.log p, s.hist.record s.log (.beginOp p)⟩ := by
  obtain ⟨ops, _, count⟩ := counted.active
  have outside : ∀ q pc, (s.log.move p .asleep).pos q = .commit pc → s.log.pos q = .commit pc :=
    fun q pc at_commit => move_other at_commit nofun
  unfold beginOp
  split
  · exact ⟨listed.distinct, listed.blocks, fun q pc h => listed.cleared q pc (outside q pc h), listed.idle⟩
  rename_i free
  split
  · exact ⟨listed.distinct, listed.blocks, fun q pc h => listed.cleared q pc (outside q pc h), listed.idle⟩
  refine ⟨listed.distinct, listed.blocks, ?_, ?_⟩
  · exact fun q pc at_commit => absurd (counted.holder q pc (move_other at_commit nofun)) free
  intro _ none
  change s.log.outstanding + 1 = 0 at none
  omega

theorem listed_logWrite (listed : Listed s) (counted : Counted s.log) (inside : s.log.pos p = .inOp)
    (written : logWrite s.log b = .ok l') : Listed ⟨l', s.hist.record s.log (.logWrite p b)⟩ := by
  obtain ⟨least, _, count, busy, pos, memory⟩ := logWrite_ok written
  have free := (outstanding_of_inOp counted inside).2
  have blocks := listed.blocks free
  refine ⟨?_, ?_, ?_, ?_⟩
  · change l'.lh.block.Nodup
    rw [memory]
    split
    · exact listed.distinct
    rename_i fresh
    exact List.Nodup.append listed.distinct (List.nodup_singleton b) (by simpa using fresh)
  · intro _
    change l'.lh.block.toFinset = insert b s.hist.txnBlocks
    rw [memory, ← blocks]
    split
    · rename_i old
      rw [Finset.insert_eq_of_mem (List.mem_toFinset.mpr old)]
    ext x
    simp
  · intro q pc at_commit
    change l'.pos q = .commit pc at at_commit
    rw [pos] at at_commit
    simp [counted.holder q pc at_commit] at free
  intro _ none
  change l'.outstanding = 0 at none
  omega

theorem listed_endOp (listed : Listed s) (counted : Counted s.log) (ended : endOp s.log p = .ok l') :
    Listed ⟨l', s.hist.record s.log (.endOp p)⟩ := by
  obtain ⟨free, res⟩ := endOp_ok ended
  have nobody : ∀ q pc, s.log.pos q ≠ .commit pc := by
    intro q pc at_commit
    simp [counted.holder q pc at_commit] at free
  subst l'
  split
  · refine ⟨listed.distinct, fun busy => by simp [Log.move] at busy, ?_, fun busy => by simp [Log.move] at busy⟩
    intro q pc at_commit late
    change (Log.move _ p (.commit .check)).pos q = .commit pc at at_commit
    rw [pos_move] at at_commit
    split at at_commit
    · cases at_commit
      simp at late
    · exact absurd at_commit (nobody q pc)
  rename_i more
  refine ⟨listed.distinct, fun _ => listed.blocks free, ?_, fun _ none => absurd none more⟩
  intro q pc at_commit
  exact absurd ((pos_wakeup_commit _ q pc).mp (move_other at_commit (by simp))) (nobody q pc)

/- The committer is the only process past end_op, so what it knows of the header is all
   there is to know. -/
theorem listed_walk (counted : Counted s.log) (at_commit : s.log.pos p = .commit pc) (next : CommitPc)
    (lh : LogHeader) (distinct : lh.block.Nodup) (empty : next = .eraseHead ∨ next = .finish → lh.block = [])
    (hist : History P) : Listed ⟨{ s.log with lh := lh }.move p (.commit next), hist⟩ := by
  have busy := counted.holder p pc at_commit
  refine ⟨distinct, fun free => ?_, ?_, fun free => ?_⟩
  · change s.log.committing = false at free
    simp [busy] at free
  · intro q pc' commits late
    change (Log.move _ p (.commit next)).pos q = .commit pc' at commits
    rw [pos_move] at commits
    split at commits
    · cases commits
      exact empty late
    rename_i apart
    exact absurd (counted.single q p _ _ commits at_commit) apart
  change s.log.committing = false at free
  simp [busy] at free

theorem listed_finish (listed : Listed s) (counted : Counted s.log) (at_commit : s.log.pos p = .commit .finish) :
    Listed ⟨commit s.log p .finish, s.hist.commit s.log .finish⟩ := by
  have nothing := listed.cleared p _ at_commit (.inr rfl)
  have still := counted_commit counted at_commit
  refine ⟨listed.distinct, fun _ => ?_, ?_, fun _ _ => nothing⟩
  · change s.log.lh.block.toFinset = ∅
    simp [nothing]
  intro q pc commits
  have busy := still.holder q pc commits
  simp [commit, Log.move, wakeup] at busy

theorem listed_commit (listed : Listed s) (counted : Counted s.log) (at_commit : s.log.pos p = .commit pc) :
    Listed ⟨commit s.log p pc, s.hist.commit s.log pc⟩ := by
  cases pc with
  | check =>
    refine listed_walk counted at_commit _ s.log.lh listed.distinct ?_ _
    split
    · simp
    rename_i empty
    intro _
    simpa [LogHeader.n, List.length_pos_iff] using empty
  | writeLog tail | installTrans tail =>
    exact listed_walk counted at_commit _ s.log.lh listed.distinct (by split <;> simp) _
  | writeHead => exact listed_walk counted at_commit _ s.log.lh listed.distinct (by simp) _
  | clear =>
    exact listed_walk counted at_commit _ .empty (by simp [LogHeader.empty])
      (fun _ => rfl) _
  | eraseHead =>
    exact listed_walk counted at_commit _ s.log.lh listed.distinct
      (fun _ => listed.cleared p _ at_commit (.inl rfl)) _
  | finish => exact listed_finish listed counted at_commit

theorem listed_step {s t : Sys P} (listed : Listed s) (counted : Counted s.log) (stepped : Step s e t) : Listed t := by
  obtain ⟨l', h'⟩ := t
  obtain ⟨enabled, res, rfl⟩ := stepped
  cases e with
  | beginOp p => cases res; exact listed_beginOp listed counted p
  | logWrite p b => exact listed_logWrite listed counted enabled res
  | endOp p => exact listed_endOp listed counted res
  | commit p =>
    obtain ⟨pc, at_commit⟩ := enabled
    simp only [step, at_commit] at res
    cases res
    simpa [History.record, at_commit] using listed_commit listed counted at_commit
  | kill p =>
    cases res
    exact ⟨listed.distinct, listed.blocks, fun q pc commits => listed.cleared q pc (move_other commits (by simp)),
      listed.idle⟩

theorem run_listed {size : Nat} {es : List (Event P)} (run : Run Step (.init size) es s) : Tracked s ∧ Listed s := by
  refine run_invariant (fun s => Tracked s ∧ Listed s) ⟨tracked_init size, listed_init size⟩ ?_ run
  intro s e t known stepped
  exact ⟨tracked_step known.1 stepped, listed_step known.2 known.1.counted stepped⟩

/- Every operation logs at most nine blocks. What an admitted operation may still add is
   then held back from the 28 blocks below the limit. -/
structure Reserved (s : Sys P) : Prop where
  room : ∃ ops : Finset P, (∀ p, p ∈ ops ↔ s.log.pos p = .inOp) ∧
    s.log.lh.n + ∑ p ∈ ops, (maxOpBlocks - 1 - (opBlocks s p).card) ≤ logSize - 2

theorem reserve_bound (s : Sys P) (ops : Finset P) :
    ∑ p ∈ ops, (maxOpBlocks - 1 - (opBlocks s p).card) ≤ ops.card * (maxOpBlocks - 1) := by
  rw [← smul_eq_mul]
  apply Finset.sum_le_card_nsmul
  intro q _
  omega

theorem reserved_same {s t : Sys P} (reserved : Reserved s) (pos : ∀ p, t.log.pos p = .inOp ↔ s.log.pos p = .inOp)
    (current : ∀ p, s.log.pos p = .inOp → t.hist.current p = s.hist.current p)
    (memory : t.log.lh.n ≤ s.log.lh.n) : Reserved t := by
  obtain ⟨ops, mem, room⟩ := reserved.room
  refine ⟨ops, fun p => (mem p).trans (pos p).symm, ?_⟩
  have same : ∑ p ∈ ops, (maxOpBlocks - 1 - (opBlocks t p).card) =
      ∑ p ∈ ops, (maxOpBlocks - 1 - (opBlocks s p).card) := by
    apply Finset.sum_congr rfl
    intro p inside
    rw [opBlocks, opBlocks, current p ((mem p).mp inside)]
  omega

theorem reserved_beginOp (reserved : Reserved s) (listed : Listed s)
    (counted : Counted s.log) (enabled : Enabled s.log (.beginOp p)) :
    Reserved ⟨beginOp s.log p, s.hist.record s.log (.beginOp p)⟩ := by
  have outside : s.log.pos p ≠ .inOp := by
    rcases enabled with h | h <;> simp [h]
  have asleep : Reserved ⟨s.log.move p .asleep, s.hist.record s.log (.beginOp p)⟩ := by
    refine reserved_same reserved ?_ ?_ (Nat.le_refl _)
    · intro q
      change (s.log.move p .asleep).pos q = .inOp ↔ s.log.pos q = .inOp
      rw [pos_move]
      split <;> simp_all
    intro q inside
    have apart : q ≠ p := fun same => outside (same ▸ inside)
    simp [History.record, apart]
  unfold beginOp
  split
  · exact asleep
  rename_i free
  split
  · exact asleep
  rename_i admitted
  obtain ⟨ops, mem, count⟩ := counted.active
  have absent : p ∉ ops := fun inside => outside ((mem p).mp inside)
  refine ⟨insert p ops, ?_, ?_⟩
  · intro q
    change q ∈ insert p ops ↔ (Log.move _ p .inOp).pos q = .inOp
    rw [pos_move, Finset.mem_insert, mem]
    split <;> simp_all
  rw [Finset.sum_insert absent]
  change s.log.lh.n + _ ≤ _
  generalize Sys.mk _ _ = t
  have others := reserve_bound t ops
  have first : ops.card = 0 → s.log.lh.n = 0 := by
    intro none
    have idle := listed.idle (by simpa using free) (by omega)
    simp [LogHeader.n, idle]
  simp only [maxOpBlocks, logSize] at *
  omega

theorem reserved_logWrite (reserved : Reserved s) (tracked : Tracked s) (inside : s.log.pos p = .inOp)
    (written : logWrite s.log b = .ok l') (small : (insert b (opBlocks s p)).card ≤ maxOpBlocks - 1) :
    Reserved ⟨l', s.hist.record s.log (.logWrite p b)⟩ := by
  obtain ⟨_, _, _, _, pos, memory⟩ := logWrite_ok written
  obtain ⟨ops, mem, room⟩ := reserved.room
  have here : p ∈ ops := (mem p).mpr inside
  have closed := tracked.closed (outstanding_of_inOp tracked.counted inside).2
  have known : ∀ x ∈ opBlocks s p, x ∈ s.log.lh.block := by
    intro x own
    simp only [opBlocks, List.mem_toFinset, List.mem_map] at own
    obtain ⟨y, logged, rfl⟩ := own
    have num := tracked.current p y inside logged
    exact tracked.inMemory y (.inr ⟨p, inside, logged⟩) (by omega)
  have mine : opBlocks ⟨l', s.hist.record s.log (.logWrite p b)⟩ p = insert b (opBlocks s p) := by
    ext x
    simp [opBlocks, History.record]
  have others : ∑ q ∈ ops.erase p, (maxOpBlocks - 1 - (opBlocks
        ⟨l', s.hist.record s.log (.logWrite p b)⟩ q).card) =
      ∑ q ∈ ops.erase p, (maxOpBlocks - 1 - (opBlocks s q).card) := by
    apply Finset.sum_congr rfl
    intro q other
    have apart := Finset.ne_of_mem_erase other
    simp [opBlocks, History.record, apart]
  refine ⟨ops, ?_, ?_⟩
  · intro q
    change q ∈ ops ↔ l'.pos q = .inOp
    rw [pos, mem]
  rw [← Finset.add_sum_erase ops _ here] at room ⊢
  rw [mine, others]
  change l'.lh.block.length + _ ≤ _
  change s.log.lh.block.length + _ ≤ _ at room
  rw [memory]
  split
  · have grows := Finset.card_le_card (Finset.subset_insert b (opBlocks s p))
    omega
  rename_i fresh
  have new := Finset.card_insert_of_notMem (fun own => fresh (known b own))
  simp only [List.length_append, List.length_singleton]
  omega

theorem reserved_endOp (reserved : Reserved s) (inside : s.log.pos p = .inOp)
    (ended : endOp s.log p = .ok l') : Reserved ⟨l', s.hist.record s.log (.endOp p)⟩ := by
  obtain ⟨_, res⟩ := endOp_ok ended
  obtain ⟨ops, mem, room⟩ := reserved.room
  have here : p ∈ ops := (mem p).mpr inside
  have memory : l'.lh = s.log.lh := by
    rw [res]
    split <;> rfl
  refine ⟨ops.erase p, ?_, ?_⟩
  · intro q
    change q ∈ ops.erase p ↔ l'.pos q = .inOp
    rw [res, Finset.mem_erase, mem]
    split
    · rw [pos_move]
      split <;> simp_all
    rw [pos_move]
    split
    · simp_all
    rw [pos_wakeup_inOp]
    simp_all
  rw [← Finset.add_sum_erase ops _ here] at room
  change l'.lh.n + ∑ q ∈ ops.erase p, (maxOpBlocks - 1 - (opBlocks s q).card) ≤ _
  rw [memory]
  omega

theorem reserved_commit (reserved : Reserved s) (at_commit : s.log.pos p = .commit pc) :
    Reserved ⟨commit s.log p pc, s.hist.commit s.log pc⟩ := by
  have current : (s.hist.commit s.log pc).current = s.hist.current := by
    cases pc <;> simp only [History.commit]
    split <;> rfl
  refine reserved_same reserved ?_ (fun q _ => by rw [current]) ?_
  · intro q
    cases pc with
    | finish =>
      change (Log.move _ p _).pos q = .inOp ↔ _
      rw [pos_move]
      split
      · simp_all
      · exact pos_wakeup_inOp _ q
    | _ =>
      change (Log.move _ p _).pos q = .inOp ↔ _
      rw [pos_move]
      split <;> simp_all
  · cases pc <;> simp [commit, Log.move, wakeup, LogHeader.n, LogHeader.empty]

def Within (m : Nat) (s : Sys P) : Event P → Prop
  | .logWrite p b => (insert b (opBlocks s p)).card ≤ m
  | _ => True

theorem reserved_step {s t : Sys P} (reserved : Reserved s) (tracked : Tracked s) (listed : Listed s)
    (small : Within (maxOpBlocks - 1) s e) (stepped : Step s e t) : Reserved t := by
  obtain ⟨l', h'⟩ := t
  obtain ⟨enabled, res, rfl⟩ := stepped
  cases e with
  | beginOp p => cases res; exact reserved_beginOp reserved listed tracked.counted enabled
  | logWrite p b => exact reserved_logWrite reserved tracked enabled res small
  | endOp p => exact reserved_endOp reserved enabled res
  | commit p =>
    obtain ⟨pc, at_commit⟩ := enabled
    simp only [step, at_commit] at res
    cases res
    simpa [History.record, at_commit] using reserved_commit reserved at_commit
  | kill p =>
    cases res
    have sleeping : s.log.pos p = .asleep := enabled
    refine reserved_same reserved ?_ (fun _ _ => rfl) (Nat.le_refl _)
    intro q
    change (s.log.move p .woken).pos q = .inOp ↔ _
    rw [pos_move]
    split <;> simp_all

def Panics (size : Nat) (es : List (Event P)) (message : String) : Prop :=
  ∃ before e s, before ++ [e] <+: es ∧ Run Step (.init size) before s ∧ Enabled s.log e ∧
    step s.log e = .error message

/-- Some log_write is made when the operations of the open transaction have already
    logged 29 distinct blocks. -/
def Crowded (size : Nat) (es : List (Event P)) : Prop :=
  ∃ before p b s, before ++ [.logWrite p b] <+: es ∧ Run Step (.init size) before s ∧
    Enabled s.log (.logWrite p b) ∧ logSize - 1 ≤ s.hist.txnBlocks.card

def Disciplined (m size : Nat) (es : List (Event P)) : Prop :=
  ∀ before e s, before ++ [e] <+: es → Run Step (.init size) before s → Within m s e

theorem too_big_iff (tracked : Tracked s) (listed : Listed s) (mkfs : s.log.size = nlog)
    (inside : s.log.pos p = .inOp) : step s.log (.logWrite p b) = .error "too big a transaction" ↔
      logSize - 1 ≤ s.hist.txnBlocks.card := by
  obtain ⟨least, free⟩ := outstanding_of_inOp tracked.counted inside
  have count : s.log.lh.n = s.hist.txnBlocks.card := by
    rw [← listed.blocks free, List.toFinset_card_of_nodup listed.distinct, LogHeader.n]
  simp only [step, logWrite, mkfs, count]
  split
  · rename_i large
    refine ⟨fun _ => ?_, fun _ => rfl⟩
    simp only [nlog, logSize, maxOpBlocks] at *
    omega
  rename_i small
  constructor
  · intro panics
    split at panics
    · simp at panics
    · split at panics <;> cases panics
  intro crowded
  have bound := small
  simp only [nlog, logSize, maxOpBlocks] at bound crowded
  omega

theorem size_of_run {size : Nat} {es : List (Event P)} (run : Run Step (.init size) es s) : s.log.size = size := by
  refine run_invariant (fun s => s.log.size = size) rfl ?_ run
  intro s e t prev stepped
  obtain ⟨l', h'⟩ := t
  obtain ⟨_, res, _⟩ := stepped
  cases e with
  | beginOp p =>
    have same : (beginOp s.log p).size = s.log.size := by
      unfold beginOp
      split
      · rfl
      · split <;> rfl
    exact Except.ok.inj res ▸ same.trans prev
  | logWrite p b => exact (logWrite_ok res).2.1.trans prev
  | endOp p =>
    rw [(endOp_ok res).2]
    split <;> exact prev
  | commit p =>
    simp only [step] at res
    split at res
    · rename_i pc _
      cases res
      cases pc <;> exact prev
    cases res
    exact prev
  | kill p => cases res; exact prev

theorem too_big_event (panics : step s.log e = .error "too big a transaction") : ∃ p b, e = .logWrite p b := by
  cases e with
  | logWrite p b => exact ⟨p, b, rfl⟩
  | endOp p =>
    simp only [step, endOp] at panics
    split at panics
    · simp at panics
    · split at panics <;> cases panics
  | commit p =>
    simp only [step] at panics
    split at panics <;> cases panics
  | beginOp p => cases panics
  | kill p => cases panics

/-- The panic is reached exactly by the schedules that call log_write with 29 distinct
    blocks already in the transaction, although every one of its operations keeps to its
    reservation; operations of at most MAXOPBLOCKS - 1 blocks never get there. -/
theorem too_big_exactly_crowded (es : List (Event P)) :
    (¬ Panics nlog es "too big a transaction" ↔ ¬ Crowded nlog es) ∧
    (Disciplined (maxOpBlocks - 1) nlog es → ¬ Panics nlog es "too big a transaction") := by
  have same : Panics nlog es "too big a transaction" ↔ Crowded nlog es := by
    constructor
    · rintro ⟨before, e, s, inside, run, enabled, panics⟩
      obtain ⟨p, b, rfl⟩ := too_big_event panics
      obtain ⟨tracked, listed⟩ := run_listed run
      exact ⟨before, p, b, s, inside, run, enabled,
        (too_big_iff tracked listed (size_of_run run) enabled).mp panics⟩
    · rintro ⟨before, p, b, s, inside, run, enabled, crowded⟩
      obtain ⟨tracked, listed⟩ := run_listed run
      exact ⟨before, .logWrite p b, s, inside, run, enabled,
        (too_big_iff tracked listed (size_of_run run) enabled).mpr crowded⟩
  refine ⟨not_congr same, ?_⟩
  intro disciplined panics
  obtain ⟨before, p, b, s, inside, run, enabled, crowded⟩ := same.mp panics
  obtain ⟨tracked, listed⟩ := run_listed run
  have guarded := guarded_of_run (Within (maxOpBlocks - 1)) run (fun pre e t part =>
    disciplined pre e t (part.trans ((List.prefix_append before _).trans inside)))
  have kept : (Tracked s ∧ Listed s) ∧ Reserved s := by
    refine run_invariant (fun s => (Tracked s ∧ Listed s) ∧ Reserved s) ?_ ?_ guarded
    · refine ⟨⟨tracked_init nlog, listed_init nlog⟩, ⟨∅, ?_, ?_⟩⟩
      · simp [Sys.init, Log.init]
      · simp [Sys.init, Log.init, LogHeader.n, LogHeader.empty]
    rintro s e t ⟨⟨tracked, listed⟩, reserved⟩ ⟨small, stepped⟩
    exact ⟨⟨tracked_step tracked stepped, listed_step listed tracked.counted stepped⟩,
      reserved_step reserved tracked listed small stepped⟩
  obtain ⟨ops, _, room⟩ := kept.2.room
  have count : s.log.lh.n = s.hist.txnBlocks.card := by
    rw [← listed.blocks (outstanding_of_inOp tracked.counted enabled).2,
      List.toFinset_card_of_nodup listed.distinct, LogHeader.n]
  simp only [logSize, maxOpBlocks] at *
  omega

/- A schedule is checked step by step, so that the fixed one below can be computed. -/
def checkWithin (m : Nat) (s : Sys P) : Event P → Bool
  | .logWrite p b => decide ((insert b (opBlocks s p)).card ≤ m)
  | _ => true

def checkDisciplined (m : Nat) : Sys P → List (Event P) → Bool
  | _, [] => true
  | s, e :: es => checkWithin m s e && ((next s e).map (checkDisciplined m · es)).getD true

theorem within_of_check {m : Nat} {es prev : List (Event P)} {s t : Sys P}
    (checked : checkDisciplined m s es = true) (lt : prev ++ [e] <+: es)
    (reached : exec next s prev = some t) : Within m t e := by
  induction es generalizing s prev with
  | nil => simp at lt
  | cons f es ih =>
    simp only [checkDisciplined, Bool.and_eq_true] at checked
    cases prev with
    | nil =>
      have first : e = f := by simpa using lt
      simp only [exec, List.foldlM_nil, Option.pure_def, Option.some.injEq] at reached
      subst first
      subst reached
      cases e with
      | logWrite p b => simpa [checkWithin, Within] using checked.1
      | _ => trivial
    | cons g prev =>
      have both := List.cons_prefix_cons.mp lt
      obtain ⟨same, rest⟩ := both
      subst same
      simp only [exec, List.foldlM_cons] at reached
      obtain ⟨u, first, later⟩ := Option.bind_eq_some_iff.mp reached
      exact ih (by simpa [first] using checked.2) rest later

/- Three operations of ten blocks each, which begin_op admits together. -/
def threeFull : List (Event (Fin 3)) :=
  [.beginOp 0, .beginOp 1, .beginOp 2] ++
    (List.range 30).map fun i => .logWrite (if i < 10 then 0 else if i < 20 then 1 else 2)
      (100 + UInt32.ofNat i)

theorem three_full_operations_panic : ¬ ∀ es : List (Event (Fin 3)), Disciplined maxOpBlocks nlog es →
      ¬ Panics nlog es "too big a transaction" := by
  intro claim
  have checked : checkDisciplined maxOpBlocks (.init nlog) threeFull = true := by decide +kernel
  have disciplined : Disciplined maxOpBlocks nlog threeFull := fun before e s inside run =>
    within_of_check checked inside (run_iff_next.mp run)
  have last : (exec next (.init nlog) (threeFull.take 32)).any (fun s =>
      decide (s.log.pos 2 = .inOp ∧ logSize - 1 ≤ s.hist.txnBlocks.card)) = true := by
    decide +kernel
  obtain ⟨s, reached, stuck⟩ := (Option.any_eq_true _ _).mp last
  obtain ⟨inside, crowded⟩ := of_decide_eq_true stuck
  have run := run_iff_next.mpr reached
  obtain ⟨tracked, listed⟩ := run_listed run
  have panics : step s.log (.logWrite 2 129) = .error "too big a transaction" :=
    (too_big_iff tracked listed (size_of_run run) inside).mpr crowded
  have whole : threeFull.take 32 ++ [.logWrite 2 129] = threeFull := by decide +kernel
  exact claim threeFull disciplined
    ⟨threeFull.take 32, .logWrite 2 129, s, by rw [whole], run, inside, panics⟩

/- Nobody sleeps in begin_op for a commit or for space that is there. Every state here is
   one with log.lock free; a process counts as asleep from the release in sleep on. -/

def Admits (l : Log P) : Prop :=
  l.committing = false ∧ (l.lh.n : Int) + (l.outstanding + 1) * maxOpBlocks ≤ logSize

def NoneStranded (l : Log P) : Prop := ∀ p, l.pos p = .asleep → ¬ Admits l

theorem wakeup_wakes (l : Log P) (p : P) : (wakeup l).pos p ≠ .asleep := by
  simp only [wakeup]
  split
  · simp
  · assumption

theorem stranded_sleep (p : P) (refused : ¬ Admits l) : NoneStranded (l.move p .asleep) := fun _ _ => refused

theorem stranded_beginOp (awake : NoneStranded l) (p : P) : NoneStranded (beginOp l p) := by
  unfold beginOp
  split
  case isTrue busy =>
    exact stranded_sleep p fun admits => by simp [admits.1] at busy
  case isFalse free =>
    split
    case isTrue full =>
      exact stranded_sleep p fun admits => by have := admits.2; omega
    case isFalse room =>
      -- an admitted operation leaves less room for the others
      intro q asleep admits
      refine awake q (move_other asleep nofun) ⟨admits.1, ?_⟩
      omega

theorem stranded_logWrite {l l' : Log P} (awake : NoneStranded l)
    (written : logWrite l b = .ok l') : NoneStranded l' := by
  obtain ⟨_, _, count, busy, pos, block⟩ := logWrite_ok written
  have longer : l.lh.n ≤ l'.lh.n := by
    unfold LogHeader.n
    rw [block]
    split
    · exact Nat.le_refl _
    · simp
  intro p asleep admits
  rw [pos] at asleep
  refine awake p asleep ⟨busy ▸ admits.1, ?_⟩
  have space := admits.2
  rw [count] at space
  omega

theorem stranded_endOp {l l' : Log P} (ended : endOp l p = .ok l') : NoneStranded l' := by
  obtain ⟨_, res⟩ := endOp_ok ended
  subst l'
  split
  · exact fun _ _ admits => by simpa [Log.move] using admits.1
  · exact fun q asleep => absurd (move_other asleep (by simp)) (wakeup_wakes _ q)

theorem stranded_commit (awake : NoneStranded l) (counted : Counted l)
    (at_commit : l.pos p = .commit pc) : NoneStranded (commit l p pc) := by
  have busy := counted.holder p pc at_commit
  cases pc with
  | finish => exact fun q asleep => absurd (move_other asleep nofun) (wakeup_wakes _ q)
  | clear =>
    -- lh.n is reset while committing is still set
    intro q _ admits
    have idle : l.committing = false := admits.1
    simp [busy] at idle
  | check | writeLog tail | writeHead | installTrans tail | eraseHead =>
    exact fun q asleep => awake q (move_other asleep nofun)

theorem stranded_step {l l' : Log P} (awake : NoneStranded l) (counted : Counted l)
    (enabled : Enabled l e) (stepped : step l e = .ok l') : NoneStranded l' := by
  cases e with
  | beginOp p =>
    cases stepped
    exact stranded_beginOp awake p
  | logWrite p b => exact stranded_logWrite awake stepped
  | endOp p => exact stranded_endOp stepped
  | commit p =>
    obtain ⟨pc, at_commit⟩ := enabled
    simp only [step, at_commit] at stepped
    cases stepped
    exact stranded_commit awake counted at_commit
  | kill p =>
    cases stepped
    exact fun q asleep => awake q (move_other asleep (by simp))

theorem begin_op_strands_nobody {size : Nat} {s : Sys P} (reachable : Reachable size s) (p : P)
    (asleep : s.log.pos p = .asleep) :
    ¬ (s.log.committing = false ∧ (s.log.lh.n : Int) + (s.log.outstanding + 1) * maxOpBlocks ≤ logSize) := by
  obtain ⟨es, run⟩ := reachable
  have both : Tracked s ∧ NoneStranded s.log := by
    refine run_invariant (fun s => Tracked s ∧ NoneStranded s.log) ⟨tracked_init size, nofun⟩ ?_ run
    intro s e t known stepped
    exact ⟨tracked_step known.1 stepped, stranded_step known.2 known.1.counted stepped.1 stepped.2.1⟩
  exact both.2 p asleep

def fourth : List (Event (Fin 4)) := [.beginOp 0, .beginOp 1, .beginOp 2, .beginOp 3]

theorem fourth_operation_waits : ∃ s : Sys (Fin 4), Reachable nlog s ∧ s.log.pos 3 = .asleep ∧
    ¬ (s.log.committing = false ∧ (s.log.lh.n : Int) + (s.log.outstanding + 1) * maxOpBlocks ≤ logSize) := by
  have waits : (exec next (.init nlog) fourth).any (fun s => decide (s.log.pos 3 = .asleep)) = true := by
    decide +kernel
  obtain ⟨s, reached, asleep⟩ := (Option.any_eq_true _ _).mp waits
  have reachable : Reachable nlog s := ⟨fourth, run_iff_next.mpr reached⟩
  exact ⟨s, reachable, of_decide_eq_true asleep, begin_op_strands_nobody reachable 3 (of_decide_eq_true asleep)⟩

end Xv6GroupCommit
