import Mathlib.Data.Finset.Card
import Mathlib.Data.Finset.Insert
import Xv6.Params

/- Concurrent begin_op, log_write and end_op of kernel/log.c. A step is one critical
   section of log.lock, or one action of commit(), which runs outside the lock.
   sleep(&log) and wakeup(&log) move a process between `asleep` and `woken`; kill may
   wake a sleeper at any time. A panic stops the machine. -/
namespace Xv6GroupCommit
open Xv6

set_option linter.unusedSectionVars false

/-- The in-memory lh.block[0..n). The array has LOGSIZE entries. -/
structure LogHeader where
  block : List UInt32
  fits : block.length ≤ logSize

def LogHeader.n (lh : LogHeader) : Nat := lh.block.length

def LogHeader.empty : LogHeader := ⟨[], Nat.zero_le _⟩

inductive CommitPc where
  | check
  | writeLog (tail : Nat)
  | writeHead
  | installTrans (tail : Nat)
  | clear
  | eraseHead
  | finish
  deriving DecidableEq, Repr

inductive Pos where
  | idle
  | asleep
  | woken
  | inOp
  | commit (pc : CommitPc)
  deriving DecidableEq, Repr

structure Log (P : Type) where
  size : Nat
  outstanding : Int
  committing : Bool
  lh : LogHeader
  pos : P → Pos

inductive Event (P : Type) where
  | beginOp (p : P)
  | logWrite (p : P) (blockno : UInt32)
  | endOp (p : P)
  | commit (p : P)
  | kill (p : P)
  deriving DecidableEq

variable {P : Type} [DecidableEq P]

def Log.init (size : Nat) : Log P := ⟨size, 0, false, .empty, fun _ => .idle⟩

def Log.move (l : Log P) (p : P) (pos : Pos) : Log P :=
  { l with pos := Function.update l.pos p pos }

def wakeup (l : Log P) : Log P :=
  { l with pos := fun p => if l.pos p = .asleep then .woken else l.pos p }

def beginOp (l : Log P) (p : P) : Log P :=
  if l.committing then l.move p .asleep
  else if (l.lh.n : Int) + (l.outstanding + 1) * maxOpBlocks > logSize then l.move p .asleep
  else { l with outstanding := l.outstanding + 1 }.move p .inOp

def logWrite (l : Log P) (blockno : UInt32) : Except String (Log P) :=
  if large : l.lh.n ≥ logSize ∨ (l.lh.n : Int) ≥ l.size - 1 then
    .error "too big a transaction"
  else if l.outstanding < 1 then .error "log_write outside of trans"
  -- log absorption: the scan stops at a block already listed
  else if blockno ∈ l.lh.block then .ok l
  else .ok { l with lh := ⟨l.lh.block ++ [blockno], by
    simp only [LogHeader.n, not_or, ge_iff_le, not_le] at large
    simp only [List.length_append, List.length_singleton]
    omega⟩ }

def endOp (l : Log P) (p : P) : Except String (Log P) :=
  let l := { l with outstanding := l.outstanding - 1 }
  if l.committing then .error "log.committing"
  else if l.outstanding = 0 then .ok ({ l with committing := true }.move p (.commit .check))
  else .ok ((wakeup l).move p .idle)

/-- The next action of commit(), and after it the second critical section of end_op. -/
def commit (l : Log P) (p : P) : CommitPc → Log P
  | .check => l.move p (.commit (if 0 < l.lh.n then .writeLog 0 else .finish))
  | .writeLog tail =>
      l.move p (.commit (if tail < l.lh.n then .writeLog (tail + 1) else .writeHead))
  | .writeHead => l.move p (.commit (.installTrans 0))
  | .installTrans tail =>
      l.move p (.commit (if tail < l.lh.n then .installTrans (tail + 1) else .clear))
  | .clear => { l with lh := .empty }.move p (.commit .eraseHead)
  | .eraseHead => l.move p (.commit .finish)
  | .finish => (wakeup { l with committing := false }).move p .idle

/-- Which steps a process may take: operations bracket their log_write calls. -/
def Enabled (l : Log P) : Event P → Prop
  | .beginOp p => l.pos p = .idle ∨ l.pos p = .woken
  | .logWrite p _ => l.pos p = .inOp
  | .endOp p => l.pos p = .inOp
  | .commit p => ∃ pc, l.pos p = .commit pc
  | .kill p => l.pos p = .asleep

instance (l : Log P) (e : Event P) : Decidable (Enabled l e) :=
  match e with
  | .beginOp p => inferInstanceAs (Decidable (l.pos p = .idle ∨ l.pos p = .woken))
  | .logWrite p _ => inferInstanceAs (Decidable (l.pos p = .inOp))
  | .endOp p => inferInstanceAs (Decidable (l.pos p = .inOp))
  | .commit p => match at_commit : l.pos p with
    | .commit pc => isTrue ⟨pc, at_commit⟩
    | .idle | .asleep | .woken | .inOp => isFalse fun ⟨_, other⟩ => by simp [at_commit] at other
  | .kill p => inferInstanceAs (Decidable (l.pos p = .asleep))

def step (l : Log P) : Event P → Except String (Log P)
  | .beginOp p => .ok (beginOp l p)
  | .logWrite _ b => logWrite l b
  | .endOp p => endOp l p
  | .commit p => match l.pos p with
    | .commit pc => .ok (commit l p pc)
    | _ => .ok l
  | .kill p => .ok (l.move p .woken)

/- Who holds the log: the operations in progress are counted by outstanding, and at most
   one process commits, exactly while committing is set. -/
structure Counted (l : Log P) : Prop where
  active : ∃ ops : Finset P, (∀ p, p ∈ ops ↔ l.pos p = .inOp) ∧ l.outstanding = ops.card
  quiet : l.committing = true → l.outstanding = 0
  holder : ∀ p pc, l.pos p = .commit pc → l.committing = true
  single : ∀ p q pc pc', l.pos p = .commit pc → l.pos q = .commit pc' → p = q

theorem pos_move (l : Log P) (p q : P) (pos : Pos) : (l.move p pos).pos q = if q = p then pos else l.pos q := by
  simp [Log.move, Function.update_apply]

theorem move_other {pos : P → Pos} {p q : P} {v x : Pos} (there : Function.update pos p v q = x) (other : v ≠ x) :
    pos q = x := by
  rw [Function.update_apply] at there
  split at there
  · exact absurd there other
  · exact there

theorem pos_wakeup_inOp (l : Log P) (p : P) : (wakeup l).pos p = .inOp ↔ l.pos p = .inOp := by
  simp only [wakeup]
  split <;> simp_all

theorem pos_wakeup_commit (l : Log P) (p : P) (pc : CommitPc) :
    (wakeup l).pos p = .commit pc ↔ l.pos p = .commit pc := by
  simp only [wakeup]
  split <;> simp_all

variable {l : Log P} {p : P}

theorem outstanding_of_inOp (counted : Counted l) (inside : l.pos p = .inOp) :
    1 ≤ l.outstanding ∧ l.committing = false := by
  obtain ⟨ops, mem, count⟩ := counted.active
  have positive := Finset.card_pos.mpr ⟨p, (mem p).mpr inside⟩
  have least : 1 ≤ l.outstanding := by omega
  refine ⟨least, ?_⟩
  cases busy : l.committing with
  | false => rfl
  | true =>
    have := counted.quiet busy
    omega

theorem no_op_while_committing (counted : Counted l) (busy : l.committing = true) (p : P) : l.pos p ≠ .inOp := by
  intro inside
  have := (outstanding_of_inOp counted inside).2
  simp_all

/- A process that is not in an operation moves to a place outside both operation and
   commit, or stays a committer. -/
theorem counted_move (counted : Counted l) (pos : Pos) (prev : l.pos p ≠ .inOp) (after : pos ≠ .inOp)
    (stays : ∀ pc, pos = .commit pc → ∃ pc', l.pos p = .commit pc') : Counted (l.move p pos) := by
  obtain ⟨ops, mem, count⟩ := counted.active
  have committer : ∀ q pc, (l.move p pos).pos q = .commit pc → ∃ pc', l.pos q = .commit pc' := by
    intro q pc at_commit
    rw [pos_move] at at_commit
    split at at_commit
    · rename_i same
      subst q
      exact stays pc at_commit
    · exact ⟨pc, at_commit⟩
  refine ⟨⟨ops, ?_, count⟩, counted.quiet, ?_, ?_⟩
  · intro q
    rw [pos_move, mem]
    split
    · rename_i same
      subst q
      exact ⟨fun h => absurd h prev, fun h => absurd h after⟩
    · rfl
  · intro q pc at_commit
    obtain ⟨pc', old⟩ := committer q pc at_commit
    exact counted.holder q pc' old
  intro q r pc pc' first snd
  obtain ⟨_, oldq⟩ := committer q pc first
  obtain ⟨_, oldr⟩ := committer r pc' snd
  exact counted.single q r _ _ oldq oldr

theorem counted_wakeup (counted : Counted l) : Counted (wakeup l) := by
  obtain ⟨ops, mem, count⟩ := counted.active
  refine ⟨⟨ops, ?_, count⟩, counted.quiet, ?_, ?_⟩
  · intro p
    rw [pos_wakeup_inOp, mem]
  · intro p pc at_commit
    exact counted.holder p pc ((pos_wakeup_commit l p pc).mp at_commit)
  intro p q pc pc' first snd
  exact counted.single p q pc pc' ((pos_wakeup_commit l p pc).mp first)
    ((pos_wakeup_commit l q pc').mp snd)

theorem counted_beginOp (counted : Counted l) (enabled : Enabled l (.beginOp p)) : Counted (beginOp l p) := by
  have outside : l.pos p ≠ .inOp := by
    rcases enabled with h | h <;> simp [h]
  unfold beginOp
  split
  · exact counted_move counted .asleep outside (by simp) (by simp)
  rename_i free
  split
  · exact counted_move counted .asleep outside (by simp) (by simp)
  obtain ⟨ops, mem, count⟩ := counted.active
  have nobody : ∀ q pc, ({ l with outstanding := l.outstanding + 1 }.move p .inOp).pos q ≠
      .commit pc := by
    exact fun q pc at_commit => free (counted.holder q pc (move_other at_commit nofun))
  refine ⟨⟨insert p ops, ?_, ?_⟩, ?_, ?_, ?_⟩
  · intro q
    rw [pos_move, Finset.mem_insert, mem]
    split <;> simp_all
  · rw [Finset.card_insert_of_notMem (by rw [mem]; exact outside)]
    simp only [Log.move, count]
    omega
  · intro busy
    exact absurd busy free
  · intro q pc at_commit
    exact absurd at_commit (nobody q pc)
  intro q r pc pc' first
  exact absurd first (nobody q pc)

theorem logWrite_ok {l l' : Log P} {b : UInt32} (written : logWrite l b = .ok l') :
    1 ≤ l.outstanding ∧ l'.size = l.size ∧ l'.outstanding = l.outstanding ∧
      l'.committing = l.committing ∧ l'.pos = l.pos ∧
      l'.lh.block = if b ∈ l.lh.block then l.lh.block else l.lh.block ++ [b] := by
  unfold logWrite at written
  split at written
  · cases written
  split at written
  · cases written
  · split at written <;> cases written <;> simp_all

theorem counted_logWrite {l l' : Log P} (counted : Counted l) {b : UInt32}
    (written : logWrite l b = .ok l') : Counted l' := by
  obtain ⟨_, _, count, busy, pos, _⟩ := logWrite_ok written
  exact ⟨by rw [pos, count]; exact counted.active, by rw [busy, count]; exact counted.quiet,
    by rw [busy, pos]; exact counted.holder, by rw [pos]; exact counted.single⟩

theorem endOp_ok {l l' : Log P} (ended : endOp l p = .ok l') : l.committing = false ∧
      l' = if l.outstanding - 1 = 0 then
        { l with outstanding := l.outstanding - 1, committing := true }.move p (.commit .check)
      else (wakeup { l with outstanding := l.outstanding - 1 }).move p .idle := by
  simp only [endOp] at ended
  split at ended
  · cases ended
  · split at ended <;> cases ended <;> simp_all

theorem counted_endOp {l l' : Log P} (counted : Counted l) (inside : l.pos p = .inOp)
    (ended : endOp l p = .ok l') : Counted l' := by
  obtain ⟨free, res⟩ := endOp_ok ended
  obtain ⟨ops, mem, count⟩ := counted.active
  have here : p ∈ ops := (mem p).mpr inside
  have fewer : l.outstanding - 1 = (ops.erase p).card := by
    rw [Finset.card_erase_of_mem here, count]
    have := Finset.card_pos.mpr ⟨p, here⟩
    omega
  have nobody : ∀ q pc, l.pos q ≠ .commit pc := by
    intro q pc at_commit
    simp [counted.holder q pc at_commit] at free
  subst l'
  split
  · rename_i zero
    refine ⟨⟨ops.erase p, ?_, fewer⟩, fun _ => zero, fun _ _ _ => rfl, ?_⟩
    · intro q
      rw [pos_move, Finset.mem_erase, mem]
      split <;> simp_all
    have only : ∀ q pc, ({ l with outstanding := l.outstanding - 1, committing := true }.move p
        (.commit .check)).pos q = .commit pc → q = p := by
      intro q pc at_commit
      rw [pos_move] at at_commit
      split at at_commit
      · assumption
      · exact absurd at_commit (nobody q pc)
    intro q r pc pc' first snd
    rw [only q pc first, only r pc' snd]
  have gone : ∀ q pc, ((wakeup { l with outstanding := l.outstanding - 1 }).move p .idle).pos q ≠
      .commit pc := by
    exact fun q pc at_commit => nobody q pc ((pos_wakeup_commit _ q pc).mp (move_other at_commit nofun))
  refine ⟨⟨ops.erase p, ?_, fewer⟩, ?_, fun q pc h => absurd h (gone q pc), fun q _ pc _ h => absurd h (gone q pc)⟩
  · intro q
    rw [pos_move, Finset.mem_erase, mem]
    split
    · simp_all
    rw [pos_wakeup_inOp]
    simp_all
  intro busy
  change l.committing = true at busy
  simp [free] at busy

theorem counted_commit (counted : Counted l) {pc : CommitPc}
    (at_commit : l.pos p = .commit pc) : Counted (commit l p pc) := by
  have outside : l.pos p ≠ .inOp := by simp [at_commit]
  have walk : ∀ next, Counted (l.move p (.commit next)) := fun next =>
    counted_move counted _ outside (by simp) (fun _ _ => ⟨pc, at_commit⟩)
  cases pc with
  | check | writeLog tail | writeHead | installTrans tail | eraseHead => exact walk _
  | clear =>
    have next := walk .eraseHead
    exact ⟨next.active, next.quiet, next.holder, next.single⟩
  | finish =>
    -- the committer leaves, and it was the only one
    have left := counted_move (counted_wakeup counted) .idle
      (by rw [Ne, pos_wakeup_inOp]; exact outside) (by simp) (by simp)
    have nobody : ∀ q pc, ((wakeup l).move p .idle).pos q ≠ .commit pc := by
      intro q pc other
      rw [pos_move] at other
      split at other
      · cases other
      rename_i apart
      exact apart (counted.single q p _ _ ((pos_wakeup_commit l q pc).mp other) at_commit)
    exact ⟨left.active, fun busy => by simp [commit, Log.move, wakeup] at busy,
      fun q pc h => absurd h (nobody q pc), fun q _ pc _ h => absurd h (nobody q pc)⟩

theorem counted_step {l l' : Log P} {e : Event P} (counted : Counted l) (enabled : Enabled l e)
    (stepped : step l e = .ok l') : Counted l' := by
  cases e with
  | beginOp p => cases stepped; exact counted_beginOp counted enabled
  | logWrite p b => exact counted_logWrite counted stepped
  | endOp p => exact counted_endOp counted enabled stepped
  | commit p =>
    obtain ⟨pc, at_commit⟩ := enabled
    simp only [step, at_commit] at stepped
    cases stepped
    exact counted_commit counted at_commit
  | kill p =>
    cases stepped
    exact counted_move counted .woken (by simp [show l.pos p = .asleep from enabled]) (by simp) (by simp)

end Xv6GroupCommit
