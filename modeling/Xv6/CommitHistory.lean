import Mathlib
import Xv6.GroupCommit
import Xv6.Lib.Runs

/- What becomes of a logged block. A history is kept beside the log: which operation
   logged which block while which transaction was open, and the headers that commits
   have written. Every operation ends up whole in one of them. -/
namespace Xv6GroupCommit
open Xv6 Runs Function

set_option linter.unusedSectionVars false

variable {P : Type} [DecidableEq P]

/- What a run has done so far. It is written by the run and never read by it. A logged
   block carries the number of the transaction that was open at its log_write. -/
structure History (P : Type) where
  txn : Nat
  current : P → List (UInt32 × Nat)
  done : List (List (UInt32 × Nat))
  headers : List (List UInt32)
  txnBlocks : Finset UInt32

def History.init : History P := ⟨0, fun _ => [], [], [], ∅⟩

/-- The header of the n-th commit is recorded when write_head writes it, as empty when
    commit() finds nothing to write. -/
def History.commit (h : History P) (l : Log P) : CommitPc → History P
  | .check => if 0 < l.lh.n then h else { h with headers := h.headers ++ [[]] }
  | .writeHead => { h with headers := h.headers ++ [l.lh.block] }
  | .finish => { h with txnBlocks := ∅ }
  | _ => h

def History.record (h : History P) (l : Log P) : Event P → History P
  | .beginOp p => { h with current := Function.update h.current p [] }
  | .logWrite p b =>
      { h with current := Function.update h.current p (h.current p ++ [(b, h.txn)])
               txnBlocks := insert b h.txnBlocks }
  | .endOp p =>
      { h with done := h.done ++ [h.current p]
               txn := if l.outstanding - 1 = 0 then h.txn + 1 else h.txn }
  | .commit p => match l.pos p with
    | .commit pc => h.commit l pc
    | _ => h
  | .kill _ => h

structure Sys (P : Type) where
  log : Log P
  hist : History P

def Sys.init (size : Nat) : Sys P := ⟨.init size, .init⟩

def Step (s : Sys P) (e : Event P) (t : Sys P) : Prop :=
  Enabled s.log e ∧ step s.log e = .ok t.log ∧ t.hist = s.hist.record s.log e

def next (s : Sys P) (e : Event P) : Option (Sys P) :=
  if Enabled s.log e then
    match step s.log e with
    | .ok l => some ⟨l, s.hist.record s.log e⟩
    | .error _ => none
  else none

theorem step_iff_next (s t : Sys P) (e : Event P) : Step s e t ↔ next s e = some t := by
  obtain ⟨l, h⟩ := t
  unfold Step next
  split
  · rename_i enabled
    cases step s.log e <;> simp_all [eq_comm]
  · simp_all

variable {s : Sys P} {p : P} {pc : CommitPc}

theorem run_iff_next {size : Nat} {es : List (Event P)} :
    Run Step (.init size) es s ↔ exec next (.init size) es = some s := by
  have same : (Step : Sys P → Event P → Sys P → Prop) = fun s e t => next s e = some t := by
    funext s e t
    exact propext (step_iff_next s t e)
  rw [same]
  exact run_iff_exec next es s

def Reachable (size : Nat) (s : Sys P) : Prop := ∃ es, Run Step (.init size) es s

def CommitPc.pending : CommitPc → Bool
  | .check | .writeLog _ | .writeHead => true
  | _ => false

def logged (s : Sys P) (x : UInt32 × Nat) : Prop :=
  (∃ op ∈ s.hist.done, x ∈ op) ∨ ∃ p, s.log.pos p = .inOp ∧ x ∈ s.hist.current p

/- Headers written so far, and what a logged block still waits for. While no commit runs
   the open transaction has the number of headers written; while one runs, it is the
   committed transaction's header that may be missing. -/
structure Tracked (s : Sys P) : Prop where
  counted : Counted s.log
  closed : s.log.committing = false → s.hist.headers.length = s.hist.txn
  phase : ∀ p pc, s.log.pos p = .commit pc →
    s.hist.headers.length + (if pc.pending then 1 else 0) = s.hist.txn
  next : s.hist.txn ≤ s.hist.headers.length + 1
  number : ∀ x, logged s x → x.2 < s.hist.txn + (if s.log.committing then 0 else 1)
  inHeader : ∀ x hd, logged s x → s.hist.headers[x.2]? = some hd → x.1 ∈ hd
  inMemory : ∀ x, logged s x → s.hist.headers.length ≤ x.2 → x.1 ∈ s.log.lh.block
  current : ∀ p x, s.log.pos p = .inOp → x ∈ s.hist.current p → x.2 = s.hist.txn
  whole : ∀ op ∈ s.hist.done, ∃ k, ∀ x ∈ op, x.2 = k

theorem tracked_init (size : Nat) : Tracked (.init size : Sys P) := by
  refine ⟨⟨⟨∅, ?_, ?_⟩, ?_, ?_, ?_⟩, ?_, ?_, ?_, ?_, ?_, ?_, ?_, ?_⟩ <;>
    simp [Sys.init, Log.init, History.init, logged]

/- A step that starts and ends no operation and no commit phase keeps the bookkeeping. -/
theorem tracked_same {s t : Sys P} (tracked : Tracked s) (counted : Counted t.log)
    (hist : t.hist.headers = s.hist.headers ∧ t.hist.txn = s.hist.txn ∧ t.hist.done = s.hist.done)
    (busy : t.log.committing = s.log.committing) (memory : t.log.lh.block = s.log.lh.block)
    (ops : ∀ p, t.log.pos p = .inOp → t.hist.current p = [] ∨ s.log.pos p = .inOp ∧ t.hist.current p = s.hist.current p)
    (phase : ∀ p pc, t.log.pos p = .commit pc →
      ∃ pc', s.log.pos p = .commit pc' ∧ pc'.pending = pc.pending) : Tracked t := by
  obtain ⟨headers, txn, done⟩ := hist
  have old : ∀ x, logged t x → logged s x := by
    rintro x (⟨op, mem, inside⟩ | ⟨p, inOp, inside⟩)
    · exact .inl ⟨op, done ▸ mem, inside⟩
    rcases ops p inOp with empty | ⟨prev, same⟩
    · simp [empty] at inside
    · exact .inr ⟨p, prev, same ▸ inside⟩
  refine ⟨counted, ?_, ?_, by rw [headers, txn]; exact tracked.next, ?_, ?_, ?_, ?_, ?_⟩
  · rw [busy, headers, txn]
    exact tracked.closed
  · intro p pc at_commit
    obtain ⟨pc', prev, same⟩ := phase p pc at_commit
    rw [headers, txn, ← same]
    exact tracked.phase p pc' prev
  · intro x mem
    rw [busy, txn]
    exact tracked.number x (old x mem)
  · intro x hd mem
    rw [headers]
    exact tracked.inHeader x hd (old x mem)
  · intro x mem
    rw [headers, memory]
    exact tracked.inMemory x (old x mem)
  · intro p x inOp inside
    rcases ops p inOp with empty | ⟨prev, same⟩
    · simp [empty] at inside
    rw [txn]
    exact tracked.current p x prev (same ▸ inside)
  rw [done]
  exact tracked.whole

section
variable (tracked : Tracked s)
include tracked

theorem tracked_beginOp (enabled : Enabled s.log (.beginOp p)) :
    Tracked ⟨beginOp s.log p, s.hist.record s.log (.beginOp p)⟩ := by
  have away : ∀ q, q ≠ p → (beginOp s.log p).pos q = s.log.pos q := by
    intro q apart
    unfold beginOp
    split
    · simp [pos_move, apart]
    · split <;> simp [pos_move, apart]
  have here : ∀ pc, (beginOp s.log p).pos p ≠ .commit pc := by
    intro pc
    unfold beginOp
    split
    · simp [pos_move]
    · split <;> simp [pos_move]
  have busy : (beginOp s.log p).committing = s.log.committing := by
    unfold beginOp
    split
    · rfl
    · split <;> rfl
  have memory : (beginOp s.log p).lh = s.log.lh := by
    unfold beginOp
    split
    · rfl
    · split <;> rfl
  refine tracked_same tracked (counted_beginOp tracked.counted enabled) ⟨rfl, rfl, rfl⟩ busy
    (by rw [memory]) ?_ ?_
  · intro q inOp
    by_cases same : q = p
    · exact .inl (by simp [History.record, same])
    · exact .inr ⟨away q same ▸ inOp, by simp [History.record, same]⟩
  intro q pc at_commit
  by_cases same : q = p
  · subst q
    exact absurd at_commit (here pc)
  · exact ⟨pc, away q same ▸ at_commit, rfl⟩

theorem tracked_logWrite {l' : Log P} {b : UInt32} (inside : s.log.pos p = .inOp)
    (written : logWrite s.log b = .ok l') : Tracked ⟨l', s.hist.record s.log (.logWrite p b)⟩ := by
  obtain ⟨_, _, _, busy, pos, memory⟩ := logWrite_ok written
  have free := (outstanding_of_inOp tracked.counted inside).2
  have closed := tracked.closed free
  have grows : ∀ x ∈ s.log.lh.block, x ∈ l'.lh.block := by
    intro x mem
    rw [memory]
    split <;> simp [mem]
  have added : b ∈ l'.lh.block := by
    rw [memory]
    split <;> simp_all
  have fresh : ∀ x, logged ⟨l', s.hist.record s.log (.logWrite p b)⟩ x → logged s x ∨ x = (b, s.hist.txn) := by
    rintro x (⟨op, mem, inOp⟩ | ⟨q, inOp, mem⟩)
    · exact .inl (.inl ⟨op, mem, inOp⟩)
    change l'.pos q = .inOp at inOp
    rw [pos] at inOp
    by_cases same : q = p
    · subst q
      simp only [History.record, update_self, List.mem_append, List.mem_singleton] at mem
      rcases mem with old | new
      · exact .inl (.inr ⟨p, inOp, old⟩)
      · exact .inr new
    simp only [History.record, update_of_ne same] at mem
    exact .inl (.inr ⟨q, inOp, mem⟩)
  refine ⟨counted_logWrite tracked.counted written, fun _ => closed, ?_, tracked.next, ?_, ?_, ?_, ?_, tracked.whole⟩
  · intro q pc at_commit
    exact tracked.phase q pc (pos ▸ at_commit)
  · intro x mem
    rw [busy]
    rcases fresh x mem with old | rfl
    · exact tracked.number x old
    · simp [free, History.record]
  · intro x hd mem found
    rcases fresh x mem with old | rfl
    · exact tracked.inHeader x hd old found
    · simp [History.record, ← closed] at found
  · intro x mem waiting
    rcases fresh x mem with old | rfl
    · exact grows _ (tracked.inMemory x old waiting)
    · exact added
  intro q x inOp mem
  change l'.pos q = .inOp at inOp
  rw [pos] at inOp
  by_cases same : q = p
  · subst q
    simp only [History.record, update_self, List.mem_append, List.mem_singleton] at mem
    rcases mem with old | rfl
    · exact tracked.current p x inOp old
    · rfl
  simp only [History.record, update_of_ne same] at mem
  exact tracked.current q x inOp mem

theorem tracked_endOp {l' : Log P} (inside : s.log.pos p = .inOp)
    (ended : endOp s.log p = .ok l') : Tracked ⟨l', s.hist.record s.log (.endOp p)⟩ := by
  have counted := counted_endOp tracked.counted inside ended
  obtain ⟨free, res⟩ := endOp_ok ended
  have closed := tracked.closed free
  have memory : l'.lh = s.log.lh := by
    rw [res]
    split <;> rfl
  have busy : l'.committing = decide (s.log.outstanding - 1 = 0) := by
    rw [res]
    split
    · simp_all [Log.move]
    · simp_all [Log.move, wakeup]
  have others : ∀ q, l'.pos q = .inOp → s.log.pos q = .inOp ∧ q ≠ p := by
    intro q inOp
    rw [res] at inOp
    split at inOp
    · rw [pos_move] at inOp
      split at inOp
      · cases inOp
      · exact ⟨inOp, by assumption⟩
    rw [pos_move] at inOp
    split at inOp
    · cases inOp
    · exact ⟨(pos_wakeup_inOp _ q).mp inOp, by assumption⟩
  have committer : ∀ q pc, l'.pos q = .commit pc → pc = .check ∧ s.log.outstanding - 1 = 0 := by
    have nobody : ∀ q pc, s.log.pos q ≠ .commit pc := by
      intro q pc at_commit
      simp [tracked.counted.holder q pc at_commit] at free
    intro q pc at_commit
    rw [res] at at_commit
    split at at_commit
    · rename_i zero
      rw [pos_move] at at_commit
      split at at_commit
      · cases at_commit
        exact ⟨rfl, zero⟩
      · exact absurd at_commit (nobody q pc)
    · exact absurd ((pos_wakeup_commit _ q pc).mp (move_other at_commit (by simp))) (nobody q pc)
  have old : ∀ x, logged ⟨l', s.hist.record s.log (.endOp p)⟩ x → logged s x := by
    rintro x (⟨op, mem, inOp⟩ | ⟨q, inOp, mem⟩)
    · simp only [History.record, List.mem_append, List.mem_singleton] at mem
      rcases mem with earlier | rfl
      · exact .inl ⟨op, earlier, inOp⟩
      · exact .inr ⟨p, inside, inOp⟩
    · exact .inr ⟨q, (others q inOp).1, mem⟩
  refine ⟨counted, ?_, ?_, ?_, ?_, ?_, ?_, ?_, ?_⟩
  · intro idle
    change l'.committing = false at idle
    rw [busy, decide_eq_false_iff_not] at idle
    simp [History.record, idle, closed]
  · intro q pc at_commit
    obtain ⟨rfl, zero⟩ := committer q pc at_commit
    simp [History.record, zero, closed, CommitPc.pending]
  · simp only [History.record, closed]
    split <;> omega
  · intro x mem
    have bound := tracked.number x (old x mem)
    simp only [free, Bool.false_eq_true, if_false] at bound
    change x.2 < (if s.log.outstanding - 1 = 0 then s.hist.txn + 1 else s.hist.txn) +
      (if l'.committing = true then 0 else 1)
    rw [busy]
    split <;> simp_all
  · intro x hd mem
    exact tracked.inHeader x hd (old x mem)
  · intro x mem
    change s.hist.headers.length ≤ x.2 → x.1 ∈ l'.lh.block
    rw [memory]
    exact tracked.inMemory x (old x mem)
  · intro q x inOp mem
    have running := (others q inOp).1
    have still : ¬ s.log.outstanding - 1 = 0 := by
      intro zero
      have stopped := counted.quiet (by rw [busy]; exact decide_eq_true zero)
      obtain ⟨ops, listed, count⟩ := counted.active
      have positive := Finset.card_pos.mpr ⟨q, (listed q).mpr inOp⟩
      omega
    simp only [History.record, still, if_false]
    exact tracked.current q x running mem
  intro op mem
  simp only [History.record, List.mem_append, List.mem_singleton] at mem
  rcases mem with earlier | rfl
  · exact tracked.whole op earlier
  · exact ⟨s.hist.txn, fun x inOp => tracked.current p x inside inOp⟩

/- Recording the header of the committed transaction. Every block logged under its number
   is in memory until now, so it is in the header. -/
theorem tracked_header (at_commit : s.log.pos p = .commit pc) (next : CommitPc)
    (prev : pc.pending = true) (after : next.pending = false) : Tracked ⟨s.log.move p (.commit next),
      { s.hist with headers := s.hist.headers ++ [s.log.lh.block] }⟩ := by
  have busy := tracked.counted.holder p pc at_commit
  have phase := tracked.phase p pc at_commit
  simp only [prev, if_true] at phase
  have outside : s.log.pos p ≠ .inOp := by simp [at_commit]
  have counted : Counted (s.log.move p (.commit next)) :=
    counted_move tracked.counted _ outside (by simp) (fun _ _ => ⟨pc, at_commit⟩)
  have old : ∀ x, logged ⟨s.log.move p (.commit next),
      { s.hist with headers := s.hist.headers ++ [s.log.lh.block] }⟩ x → logged s x := by
    rintro x (done | ⟨q, inOp, mem⟩)
    · exact .inl done
    · exact .inr ⟨q, move_other inOp nofun, mem⟩
  have below : ∀ x, logged s x → x.2 < s.hist.txn := by
    intro x mem
    have bound := tracked.number x mem
    simpa [busy] using bound
  refine ⟨counted, ?_, ?_, by simp; omega, ?_, ?_, ?_, ?_, tracked.whole⟩
  · intro idle
    change s.log.committing = false at idle
    simp [busy] at idle
  · intro q pc' commits
    have same := counted.single q p _ next commits (by simp [pos_move])
    subst q
    have target : pc' = next := by simpa [pos_move] using commits.symm
    simp [target, after, phase]
  · intro x mem
    simpa [Log.move, busy] using below x (old x mem)
  · intro x hd mem found
    have bound := below x (old x mem)
    rw [List.getElem?_append] at found
    split at found
    · exact tracked.inHeader x hd (old x mem) found
    have last : x.2 - s.hist.headers.length = 0 := by omega
    simp only [last, List.getElem?_cons_zero, Option.some.injEq] at found
    subst hd
    exact tracked.inMemory x (old x mem) (by omega)
  · intro x mem waiting
    have bound := below x (old x mem)
    simp only [List.length_append, List.length_singleton] at waiting
    omega
  · exact fun q x inOp mem => tracked.current q x (move_other inOp nofun) mem

/- A committer past write_head: the bookkeeping no longer depends on the memory header. -/
theorem tracked_walk (at_commit : s.log.pos p = .commit pc) (next : CommitPc)
    (same : pc.pending = next.pending) (lh : LogHeader) (kept : pc.pending = true → lh = s.log.lh) :
    Tracked ⟨{ s.log with lh := lh }.move p (.commit next), s.hist⟩ := by
  have outside : s.log.pos p ≠ .inOp := by simp [at_commit]
  have walked := counted_move tracked.counted (.commit next) outside (by simp)
    (fun _ _ => ⟨pc, at_commit⟩)
  have counted : Counted ({ s.log with lh := lh }.move p (.commit next)) :=
    ⟨walked.active, walked.quiet, walked.holder, walked.single⟩
  have busy := tracked.counted.holder p pc at_commit
  have phase := tracked.phase p pc at_commit
  have old : ∀ x, logged ⟨{ s.log with lh := lh }.move p (.commit next), s.hist⟩ x → logged s x := by
    rintro x (done | ⟨q, inOp, mem⟩)
    · exact .inl done
    · exact .inr ⟨q, move_other inOp nofun, mem⟩
  refine ⟨counted, tracked.closed, ?_, tracked.next, fun x m => tracked.number x (old x m),
    fun x hd m => tracked.inHeader x hd (old x m), ?_, ?_, tracked.whole⟩
  · intro q pc' commits
    have unique := counted.single q p _ next commits (by simp [pos_move])
    subst q
    have target : pc' = next := by simpa [pos_move] using commits.symm
    rw [target, ← same]
    exact phase
  · intro x mem waiting
    cases late : pc.pending with
    | true =>
      have unchanged := kept late
      subst lh
      exact tracked.inMemory x (old x mem) waiting
    | false =>
      have bound := tracked.number x (old x mem)
      simp only [busy, if_true, late, Bool.false_eq_true, if_false] at bound phase
      change s.hist.headers.length ≤ x.2 at waiting
      omega
  · exact fun q x inOp mem => tracked.current q x (move_other inOp nofun) mem

theorem tracked_finish (at_commit : s.log.pos p = .commit .finish) :
    Tracked ⟨commit s.log p .finish, s.hist.commit s.log .finish⟩ := by
  have counted := counted_commit tracked.counted at_commit
  have busy := tracked.counted.holder p _ at_commit
  have phase := tracked.phase p _ at_commit
  simp only [CommitPc.pending, Bool.false_eq_true, if_false, Nat.add_zero] at phase
  have nobody : ∀ q, (commit s.log p .finish).pos q ≠ .inOp := by
    intro q inOp
    exact no_op_while_committing tracked.counted busy q ((pos_wakeup_inOp _ q).mp (move_other inOp nofun))
  have old : ∀ x, logged ⟨commit s.log p .finish, s.hist.commit s.log .finish⟩ x → logged s x := by
    rintro x (done | ⟨q, inOp, mem⟩)
    · exact .inl done
    · exact absurd inOp (nobody q)
  refine ⟨counted, fun _ => phase, ?_, tracked.next, ?_, fun x hd m => tracked.inHeader x hd (old x m),
    fun x m => tracked.inMemory x (old x m), fun q _ inOp => absurd inOp (nobody q),
    tracked.whole⟩
  · intro q pc commits
    have still := counted.holder q pc commits
    simp [commit, Log.move, wakeup] at still
  intro x mem
  have bound := tracked.number x (old x mem)
  simp only [busy, if_true] at bound
  change x.2 < s.hist.txn + _
  split <;> omega

theorem tracked_commit (at_commit : s.log.pos p = .commit pc) :
    Tracked ⟨commit s.log p pc, s.hist.commit s.log pc⟩ := by
  cases pc with
  | check =>
    by_cases empty : 0 < s.log.lh.n
    · have next := tracked_walk tracked at_commit (.writeLog 0) rfl s.log.lh (fun _ => rfl)
      simpa [commit, History.commit, empty] using next
    have next := tracked_header tracked at_commit .finish rfl rfl
    have nothing : s.log.lh.block = [] := by
      simpa [LogHeader.n, List.length_pos_iff] using empty
    simpa [commit, History.commit, empty, nothing] using next
  | writeLog tail =>
    exact tracked_walk tracked at_commit
      (if tail < s.log.lh.n then .writeLog (tail + 1) else .writeHead) (by split <;> rfl) s.log.lh
      (fun _ => rfl)
  | writeHead => exact tracked_header tracked at_commit (.installTrans 0) rfl rfl
  | installTrans tail =>
    exact tracked_walk tracked at_commit
      (if tail < s.log.lh.n then .installTrans (tail + 1) else .clear) (by split <;> rfl) s.log.lh
      (fun _ => rfl)
  | clear =>
    exact tracked_walk tracked at_commit .eraseHead rfl .empty (by simp [CommitPc.pending])
  | eraseHead =>
    exact tracked_walk tracked at_commit .finish rfl s.log.lh (fun _ => rfl)
  | finish => exact tracked_finish tracked at_commit

end

theorem tracked_step {s t : Sys P} {e : Event P} (tracked : Tracked s) (stepped : Step s e t) : Tracked t := by
  obtain ⟨l', h'⟩ := t
  obtain ⟨enabled, res, rfl⟩ := stepped
  cases e with
  | beginOp p => cases res; exact tracked_beginOp tracked enabled
  | logWrite p b => exact tracked_logWrite tracked enabled res
  | endOp p => exact tracked_endOp tracked enabled res
  | commit p =>
    obtain ⟨pc, at_commit⟩ := enabled
    simp only [step, at_commit] at res
    cases res
    simpa [History.record, at_commit] using tracked_commit tracked at_commit
  | kill p =>
    cases res
    refine tracked_same tracked (counted_step tracked.counted enabled rfl) ⟨rfl, rfl, rfl⟩ rfl rfl ?_ ?_
    · intro q inOp
      change (s.log.move p .woken).pos q = .inOp at inOp
      rw [pos_move] at inOp
      split at inOp
      · cases inOp
      · exact .inr ⟨inOp, rfl⟩
    intro q pc commits
    change (s.log.move p .woken).pos q = .commit pc at commits
    rw [pos_move] at commits
    split at commits
    · cases commits
    · exact ⟨pc, commits, rfl⟩

theorem reachable_tracked {size : Nat} (reachable : Reachable size s) : Tracked s := by
  obtain ⟨es, run⟩ := reachable
  exact run_invariant Tracked (tracked_init size) (fun _ _ _ tracked stepped => tracked_step tracked stepped) run

/- During commit() log_write can only panic: no operation is outstanding. -/
theorem lh_shrinks_while_committing {l l' : Log P} {e : Event P} (counted : Counted l)
    (busy : l.committing = true) (stepped : step l e = .ok l') : l'.lh.block ⊆ l.lh.block := by
  cases e with
  | beginOp p =>
    cases stepped
    simp [beginOp, busy, Log.move]
  | logWrite p b =>
    have := (logWrite_ok stepped).1
    have := counted.quiet busy
    omega
  | endOp p =>
    have := (endOp_ok stepped).1
    simp [busy] at this
  | commit p =>
    simp only [step] at stepped
    split at stepped
    · rename_i pc _
      cases stepped
      cases pc <;> simp [commit, Log.move, wakeup, LogHeader.empty]
    cases stepped
    simp
  | kill p =>
    cases stepped
    simp [Log.move]

/-- Group commit never splits an operation. -/
theorem group_commit_whole {size : Nat} {s : Sys P} (reachable : Reachable size s) :
    (s.log.committing = true → s.log.outstanding = 0) ∧
    (s.log.committing = true → ∀ e l', step s.log e = .ok l' → l'.lh.block ⊆ s.log.lh.block) ∧
    (∀ p, Enabled s.log (.endOp p) → step s.log (.endOp p) ≠ .error "log.committing") ∧
    (∀ op ∈ s.hist.done, ∃ k, ∀ x ∈ op, x.2 = k ∧ (∀ hd, s.hist.headers[k]? = some hd → x.1 ∈ hd) ∧
      (s.hist.headers[k]? = none → x.1 ∈ s.log.lh.block ∧ k = s.hist.headers.length)) ∧
    (s.log.committing = true → ∀ p, s.log.pos p ≠ .inOp) := by
  have tracked := reachable_tracked reachable
  refine ⟨tracked.counted.quiet, fun busy e l' => lh_shrinks_while_committing tracked.counted busy,
    ?_, ?_, no_op_while_committing tracked.counted⟩
  · intro p inside panics
    have free := (outstanding_of_inOp tracked.counted inside).2
    simp only [step, endOp, free, Bool.false_eq_true, if_false] at panics
    split at panics <;> cases panics
  intro op member
  obtain ⟨k, one⟩ := tracked.whole op member
  refine ⟨k, fun x inside => ?_⟩
  have known : logged s x := .inl ⟨op, member, inside⟩
  have number := one x inside
  refine ⟨number, fun hd => number ▸ tracked.inHeader x hd known, fun missing => ?_⟩
  rw [List.getElem?_eq_none_iff] at missing
  refine ⟨tracked.inMemory x known (number ▸ missing), ?_⟩
  have bound := tracked.number x known
  have next := tracked.next
  have closed := tracked.closed
  split at bound <;> simp_all <;> omega

/- Two operations that share a transaction, up to the header write of their commit. -/
def twoOps : List (Event Bool) :=
  [.beginOp true, .beginOp false, .logWrite true 33, .logWrite false 34, .endOp true,
    .endOp false] ++ List.replicate 5 (.commit false)

theorem two_ops_one_commit : ∃ s : Sys Bool, Reachable nlog s ∧ s.hist.headers = [[33, 34]] ∧
    s.hist.done = [[(33, 0)], [(34, 0)]] ∧ s.log.committing = true ∧ s.log.outstanding = 0 := by
  have computed : (exec next (.init nlog) twoOps).any (fun s => decide
      (s.hist.headers = [[33, 34]] ∧ s.hist.done = [[(33, 0)], [(34, 0)]] ∧
        s.log.committing = true)) = true := by decide +kernel
  obtain ⟨s, reached, known⟩ := (Option.any_eq_true _ _).mp computed
  obtain ⟨headers, done, busy⟩ := of_decide_eq_true known
  have reachable : Reachable nlog s := ⟨twoOps, run_iff_next.mpr reached⟩
  exact ⟨s, reachable, headers, done, busy, (group_commit_whole reachable).1 busy⟩

end Xv6GroupCommit
