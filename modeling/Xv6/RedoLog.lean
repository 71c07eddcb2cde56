import Mathlib.Data.List.GetD
import Xv6.GroupCommit
import Xv6.Lib.Bytes
import Xv6.Lib.Writes

/- The disk side of kernel/log.c: write_log, write_head, install_trans, commit and
   recover_from_log as sequences of block writes, and what a crash leaves of them.
   bread is a buffer of the block: the cached one while the machine runs, the disk's
   after a crash. One block write is atomic and writes reach the disk in order. -/
namespace Xv6RedoLog
open Xv6 Xv6GroupCommit Bytes Writes Function

/-- The bytes of a block, at offsets below BSIZE. -/
abbrev Block := Store
abbrev Disk := Nat → Block

structure Machine where
  buf : Nat → Block
  writes : List (Nat × Block)

def Machine.modify (m : Machine) (b : Nat) (data : Block) : Machine :=
  { m with buf := Function.update m.buf b data }

def bwrite (m : Machine) (b : Nat) : Machine :=
  { m with writes := m.writes ++ [(b, m.buf b)] }

/-- struct logheader over a block: `int n`, then `int block[]`. -/
def putBlocks (data : Block) (i : Nat) : List UInt32 → Block
  | [] => data
  | b :: bs => putBlocks (putLE data (4 + 4 * i) 4 b.toNat) (i + 1) bs

def putHeader (data : Block) (block : List UInt32) : Block :=
  putBlocks (putLE data 0 4 block.length) 0 block

def getBlocks (data : Block) (i : Nat) : Nat → List UInt32
  | 0 => []
  | n + 1 => UInt32.ofNat (getLE data (4 + 4 * i) 4) :: getBlocks data (i + 1) n

def headerCount (data : Block) : Int := Int.bmod (getLE data 0 4) 0x100000000

def writeLog (start : Nat) : Nat → List UInt32 → Machine → Machine
  | _, [], m => m
  | tail, b :: bs, m =>
      writeLog start (tail + 1) bs
        (bwrite (m.modify (start + tail + 1) (m.buf b.toNat)) (start + tail + 1))

def writeHead (start : Nat) (block : List UInt32) (m : Machine) : Machine :=
  bwrite (m.modify start (putHeader (m.buf start) block)) start

def installTrans (start : Nat) : Nat → List UInt32 → Machine → Machine
  | _, [], m => m
  | tail, b :: bs, m =>
      installTrans start (tail + 1) bs
        (bwrite (m.modify b.toNat (m.buf (start + tail + 1))) b.toNat)

def commit (start : Nat) (lh : LogHeader) (m : Machine) : Machine :=
  if lh.n > 0 then
    writeHead start [] (installTrans start 0 lh.block (writeHead start lh.block
      (writeLog start 0 lh.block m)))
  else m

/-- read_head. A negative count runs no turn of its loop; a count above LOGSIZE would run
    past the end of log.lh.block, which has no meaning here. -/
def readHead (start : Nat) (m : Machine) : Option LogHeader :=
  let block := getBlocks (m.buf start) 0 (headerCount (m.buf start)).toNat
  if fits : block.length ≤ logSize then some ⟨block, fits⟩ else none

def recoverFromLog (start : Nat) (m : Machine) : Option Machine :=
  (readHead start m).map fun lh => writeHead start [] (installTrans start 0 lh.block m)

def commitWrites (start : Nat) (lh : LogHeader) (cache : Nat → Block) : List (Nat × Block) :=
  (commit start lh ⟨cache, []⟩).writes

/-- The block writes of a recovery, which starts with every buffer read from the disk. -/
def recoveryWrites (start : Nat) (d : Disk) : Option (List (Nat × Block)) :=
  (recoverFromLog start ⟨d, []⟩).map Machine.writes

def recover (start : Nat) (d : Disk) : Option Disk := (recoveryWrites start d).map (apply d)

/-- Boot, and crash again when recovery has made `cut` block writes. -/
def reboot (start : Nat) (d : Disk) (cut : Nat) : Option Disk :=
  (recoveryWrites start d).map fun ws => apply d (ws.take cut)

/-- A commit cut off after k writes, recoveries cut off at `cuts`, and one that finishes. -/
def afterCrash (start : Nat) (lh : LogHeader) (cache : Nat → Block) (disk : Disk) (k : Nat)
    (cuts : List Nat) : Option Disk :=
  (cuts.foldlM (reboot start) (apply disk ((commitWrites start lh cache).take k))).bind
    (recover start)

theorem putBlocks_before (data : Block) (i : Nat) (bs : List UInt32) (a : Nat)
    (prev : a + 4 ≤ 4 + 4 * i) : getLE (putBlocks data i bs) a 4 = getLE data a 4 := by
  induction bs generalizing data i with
  | nil => rfl
  | cons b bs ih =>
    rw [putBlocks, ih _ _ (by omega), getLE_putLE_apart _ _ _ _ _ _ (by omega)]

theorem getBlocks_putBlocks (data : Block) (i : Nat) (bs : List UInt32) :
    getBlocks (putBlocks data i bs) i bs.length = bs := by
  induction bs generalizing data i with
  | nil => rfl
  | cons b bs ih =>
    have word : getLE (putBlocks data i (b :: bs)) (4 + 4 * i) 4 = b.toNat := by
      rw [putBlocks, putBlocks_before _ _ _ _ (by omega), getLE_putLE]
      exact Nat.mod_eq_of_lt b.toNat_lt
    rw [List.length_cons, getBlocks, word, putBlocks, ih]
    simp

theorem headerCount_putHeader (data : Block) (block : List UInt32) (fits : block.length ≤ logSize) :
    headerCount (putHeader data block) = block.length := by
  have small : block.length ≤ 30 := fits
  have word : getLE (putHeader data block) 0 4 = block.length := by
    rw [putHeader, putBlocks_before _ _ _ _ (by omega), getLE_putLE]
    omega
  have signed : headerCount (putHeader data block) = Int.bmod block.length 0x100000000 := by
    rw [← word]
    rfl
  exact signed.trans (Int.bmod_eq_of_le (by omega) (by omega))

theorem readHead_putHeader {start : Nat} {m : Machine} {data : Block} (lh : LogHeader)
    (here : m.buf start = putHeader data lh.block) : readHead start m = some lh := by
  have count := headerCount_putHeader data lh.block lh.fits
  have block : getBlocks (putHeader data lh.block) 0 lh.block.length = lh.block := getBlocks_putBlocks _ _ _
  simp only [readHead, here, count, Int.toNat_natCast, block, lh.fits, dite_true]

theorem readHead_clear {start : Nat} {m : Machine} (clear : headerCount (m.buf start) = 0) :
    readHead start m = some .empty := by
  simp [readHead, clear, getBlocks, LogHeader.empty]

section
variable (start : Nat) (bs : List UInt32) (tail : Nat) (m : Machine)
  (outside : ∀ b ∈ bs, b.toNat < start ∨ start + tail + bs.length < b.toNat)
include start bs tail m outside

/- What each loop writes, and what it leaves in the buffers. -/
theorem writeLog_spec :
    (writeLog start tail bs m).writes = m.writes ++
      (List.range bs.length).map (fun i => (start + tail + i + 1, m.buf (bs.getD i 0).toNat)) ∧
    ∀ a, (writeLog start tail bs m).buf a = if start + tail < a ∧ a ≤ start + tail + bs.length then
        m.buf (bs.getD (a - (start + tail + 1)) 0).toNat else m.buf a := by
  induction bs generalizing tail m with
  | nil =>
    refine ⟨by simp [writeLog], fun a => ?_⟩
    rw [writeLog, if_neg (by simp)]
  | cons b bs ih =>
    simp only [List.length_cons] at outside
    have rest := ih (tail + 1) (bwrite (m.modify (start + tail + 1) (m.buf b.toNat))
      (start + tail + 1)) (fun c mem => by have := outside c (by simp [mem]); omega)
    have unchanged : ∀ c ∈ bs, update m.buf (start + tail + 1) (m.buf b.toNat) c.toNat =
        m.buf c.toNat := by
      intro c mem
      have := outside c (by simp [mem])
      exact update_of_ne (by omega) _ _
    constructor
    · rw [writeLog, rest.1]
      simp only [bwrite, Machine.modify, update_self, List.append_assoc,
        List.length_cons, List.range_succ_eq_map, List.map_cons, List.map_map,
        List.singleton_append, List.append_cancel_left_eq, List.cons.injEq]
      refine ⟨by simp, ?_⟩
      apply List.map_congr_left
      intro i small
      have mem : bs.getD i 0 ∈ bs := by
        rw [List.getD_eq_getElem _ _ (List.mem_range.mp small)]
        exact List.getElem_mem _
      simp only [Function.comp_apply, List.getD_cons_succ, Prod.mk.injEq]
      exact ⟨by omega, unchanged _ mem⟩
    intro a
    rw [writeLog, rest.2 a]
    simp only [bwrite, Machine.modify, List.length_cons]
    split
    · rename_i inside
      have here : a - (start + (tail + 1) + 1) < bs.length := by omega
      have mem : bs.getD (a - (start + (tail + 1) + 1)) 0 ∈ bs := by
        rw [List.getD_eq_getElem _ _ here]
        exact List.getElem_mem _
      have index : a - (start + tail + 1) = (a - (start + (tail + 1) + 1)) + 1 := by omega
      rw [if_pos (by omega), index, List.getD_cons_succ]
      exact unchanged _ mem
    by_cases same : a = start + tail + 1
    · subst a
      rw [if_pos (by omega)]
      simp
    rw [if_neg (by omega)]
    exact update_of_ne same _ _

theorem installTrans_spec :
    (installTrans start tail bs m).writes = m.writes ++
      (List.range bs.length).map (fun i => ((bs.getD i 0).toNat, m.buf (start + tail + i + 1))) := by
  induction bs generalizing tail m with
  | nil => simp [installTrans]
  | cons b bs ih =>
    have first := outside b (by simp)
    simp only [List.length_cons] at first outside
    rw [installTrans, ih (tail + 1) _ (fun c mem => by
      have := outside c (by simp [mem]); omega)]
    simp only [bwrite, Machine.modify, update_self, List.append_assoc,
      List.length_cons, List.range_succ_eq_map, List.map_cons, List.map_map,
      List.singleton_append, List.append_cancel_left_eq, List.cons.injEq]
    refine ⟨by simp, ?_⟩
    apply List.map_congr_left
    intro i small
    have bound := List.mem_range.mp small
    simp only [Function.comp_apply, List.getD_cons_succ, Prod.mk.injEq, true_and]
    rw [update_of_ne (by omega)]
    congr 1
    omega

end

theorem writeHead_writes (start : Nat) (block : List UInt32) (m : Machine) :
    (writeHead start block m).writes = m.writes ++ [(start, putHeader (m.buf start) block)] := by
  simp [writeHead, bwrite, Machine.modify]

def Outside (start size b : Nat) : Prop := b < start ∨ start + size ≤ b

def logWrites (start : Nat) (lh : LogHeader) (cache : Nat → Block) : List (Nat × Block) :=
  (List.range lh.n).map fun i => (start + i + 1, cache (lh.block.getD i 0).toNat)

def homeWrites (lh : LogHeader) (cache : Nat → Block) : List (Nat × Block) :=
  (List.range lh.n).map fun i => ((lh.block.getD i 0).toNat, cache (lh.block.getD i 0).toNat)

theorem getD_mem_block {lh : LogHeader} {i : Nat} (small : i < lh.n) : lh.block.getD i 0 ∈ lh.block := by
  rw [List.getD_eq_getElem _ _ small]
  exact List.getElem_mem _

theorem homeWrites_agree (lh : LogHeader) (cache : Nat → Block) : ∀ w ∈ homeWrites lh cache, w.2 = cache w.1 := by
  intro w mem
  simp only [homeWrites, List.mem_map] at mem
  obtain ⟨i, _, rfl⟩ := mem
  rfl

theorem homeWrites_home {lh : LogHeader} {cache : Nat → Block} {a : Nat} :
    (∃ w ∈ homeWrites lh cache, w.1 = a) ↔ ∃ c ∈ lh.block, c.toNat = a := by
  constructor
  · rintro ⟨w, mem, rfl⟩
    simp only [homeWrites, List.mem_map, List.mem_range] at mem
    obtain ⟨i, small, rfl⟩ := mem
    exact ⟨_, getD_mem_block small, rfl⟩
  rintro ⟨c, mem, rfl⟩
  obtain ⟨i, small, here⟩ := List.mem_iff_getElem.mp mem
  refine ⟨_, List.mem_map_of_mem (List.mem_range.mpr small), ?_⟩
  rw [List.getD_eq_getElem _ _ small, here]

section
variable {start size : Nat} {lh : LogHeader} (room : lh.n < size)
  (outside : ∀ b ∈ lh.block, Outside start size b.toNat)

include room outside

theorem commit_writes (cache : Nat → Block) (some_block : 0 < lh.n) :
    ∃ x y, commitWrites start lh cache = logWrites start lh cache ++
      (start, putHeader x lh.block) :: (homeWrites lh cache ++ [(start, putHeader y [])]) := by
  have apart : ∀ b ∈ lh.block, b.toNat < start ∨ start + 0 + lh.block.length < b.toNat := by
    intro b mem
    have := outside b mem
    simp only [Outside, LogHeader.n] at this room
    omega
  have log := writeLog_spec start lh.block 0 ⟨cache, []⟩ apart
  have install := installTrans_spec start lh.block 0
    (writeHead start lh.block (writeLog start 0 lh.block ⟨cache, []⟩)) apart
  -- the log block that install_trans reads back is the one write_log filled
  have filled : ∀ i < lh.block.length,
      (writeHead start lh.block (writeLog start 0 lh.block ⟨cache, []⟩)).buf (start + 0 + i + 1) =
        cache (lh.block.getD i 0).toNat := by
    intro i small
    simp only [writeHead, bwrite, Machine.modify]
    rw [update_of_ne (by omega), log.2, if_pos (by omega)]
    have index : start + 0 + i + 1 - (start + 0 + 1) = i := by omega
    rw [index]
  have homes : (List.range lh.block.length).map (fun i => ((lh.block.getD i 0).toNat,
      (writeHead start lh.block (writeLog start 0 lh.block ⟨cache, []⟩)).buf
        (start + 0 + i + 1))) = homeWrites lh cache := by
    apply List.map_congr_left
    intro i small
    rw [filled i (List.mem_range.mp small)]
  refine ⟨(writeLog start 0 lh.block ⟨cache, []⟩).buf start, (installTrans start 0 lh.block
    (writeHead start lh.block (writeLog start 0 lh.block ⟨cache, []⟩))).buf start, ?_⟩
  rw [commitWrites, commit, if_pos some_block, writeHead_writes, install, homes, writeHead_writes, log.1]
  simp [logWrites, LogHeader.n]

theorem recovery_writes {d : Disk} {x : Block} (header : d start = putHeader x lh.block) :
    ∃ y, recoveryWrites start d = some ((List.range lh.n).map (fun i =>
      ((lh.block.getD i 0).toNat, d (start + i + 1))) ++ [(start, putHeader y [])]) := by
  have apart : ∀ b ∈ lh.block, b.toNat < start ∨ start + 0 + lh.block.length < b.toNat := by
    intro b mem
    have := outside b mem
    simp only [Outside, LogHeader.n] at this room
    omega
  refine ⟨(installTrans start 0 lh.block ⟨d, []⟩).buf start, ?_⟩
  have head : readHead start ⟨d, []⟩ = some lh := readHead_putHeader lh header
  simp only [recoveryWrites, recoverFromLog, head, Option.map_some, writeHead_writes,
    installTrans_spec start lh.block 0 ⟨d, []⟩ apart]
  simp [LogHeader.n]

end

/- A disk between transactions: the header is clear, so recovery changes nothing but it. -/
structure Quiet (start size : Nat) (home : Nat → Block) (d : Disk) : Prop where
  clear : headerCount (d start) = 0
  home : ∀ b, Outside start size b → d b = home b

/- A disk on which the transaction is committed and not yet erased. -/
structure Committed (start size : Nat) (lh : LogHeader) (disk cache : Nat → Block) (d : Disk) :
    Prop where
  header : ∃ x, d start = putHeader x lh.block
  logged : ∀ i < lh.n, d (start + i + 1) = cache (lh.block.getD i 0).toNat
  other : ∀ b, Outside start size b → (∀ c ∈ lh.block, c.toNat ≠ b) → d b = disk b

def updated (lh : LogHeader) (disk cache : Nat → Block) (b : Nat) : Block :=
  if ∃ c ∈ lh.block, c.toNat = b then cache b else disk b

variable {start size : Nat} {d : Disk} {lh : LogHeader} {home : Nat → Block} {disk cache : Nat → Block}

theorem not_outside_start (pos : 0 < size) : ¬ Outside start size start := by
  simp only [Outside]
  omega

theorem clear_putHeader (x : Block) : headerCount (putHeader x []) = 0 :=
  headerCount_putHeader x [] (Nat.zero_le _)

theorem recovery_writes_quiet (quiet : Quiet start size home d) :
    ∃ y, recoveryWrites start d = some [(start, putHeader y [])] := by
  refine ⟨d start, ?_⟩
  have head : readHead start ⟨d, []⟩ = some .empty := readHead_clear quiet.clear
  simp [recoveryWrites, recoverFromLog, head, writeHead_writes, LogHeader.empty, installTrans]

theorem reboot_quiet (pos : 0 < size) (quiet : Quiet start size home d) (cut : Nat) :
    ∃ d', reboot start d cut = some d' ∧ Quiet start size home d' := by
  obtain ⟨y, writes⟩ := recovery_writes_quiet quiet
  refine ⟨_, by rw [reboot, writes]; rfl, ?_⟩
  cases cut with
  | zero => exact quiet
  | succ cut =>
    refine ⟨?_, ?_⟩
    · simp [apply, clear_putHeader]
    intro b away
    have apart : b ≠ start := fun same => not_outside_start pos (same ▸ away)
    simpa [apply, update_of_ne apart] using quiet.home b away

section
variable (room : lh.n < size) (outside : ∀ b ∈ lh.block, Outside start size b.toNat)
include room outside

/- Writes to home blocks keep a committed disk committed; the erased header ends it. -/
theorem committed_writes (committed : Committed start size lh disk cache d) (y : Block) (cut : Nat) :
    Quiet start size (updated lh disk cache) (apply d ((homeWrites lh cache ++ [(start, putHeader y [])]).take cut)) ∨
      cut ≤ lh.n ∧ Committed start size lh disk cache
        (apply d ((homeWrites lh cache ++ [(start, putHeader y [])]).take cut)) := by
  obtain ⟨x, header⟩ := committed.header
  have length : (homeWrites lh cache).length = lh.n := by simp [homeWrites]
  by_cases early : cut ≤ lh.n
  · right
    refine ⟨early, ?_⟩
    rw [List.take_append_of_le_length (by omega)]
    have untouched : ∀ a, (∀ c ∈ lh.block, c.toNat ≠ a) → apply d ((homeWrites lh cache).take cut) a = d a := by
      intro a away
      apply apply_untouched
      intro w mem same
      obtain ⟨c, listed, here⟩ := homeWrites_home.mp ⟨w, List.mem_of_mem_take mem, same⟩
      exact away c listed here
    have lt : ∀ i, i ≤ lh.n → ∀ c ∈ lh.block, c.toNat ≠ start + i := by
      intro i small c mem same
      have := outside c mem
      simp only [Outside] at this
      omega
    refine ⟨⟨x, ?_⟩, ?_, ?_⟩
    · rw [untouched start (lt 0 (Nat.zero_le _)), header]
    · intro i small
      rw [Nat.add_assoc, untouched _ (lt (i + 1) small), ← Nat.add_assoc]
      exact committed.logged i small
    intro b away none
    rw [untouched b none, committed.other b away none]
  left
  have whole : (homeWrites lh cache ++ [(start, putHeader y [])]).length ≤ cut := by
    rw [List.length_append, length, List.length_singleton]
    omega
  rw [List.take_of_length_le whole, apply_append]
  refine ⟨by simp [apply, clear_putHeader], ?_⟩
  intro b away
  have apart : b ≠ start := fun same => not_outside_start (by omega) (same ▸ away)
  rw [apply_untouched _ _ b (by simp [Ne.symm apart]), updated]
  split
  · rename_i home
    exact apply_agreeing d _ cache (homeWrites_agree lh cache) b (homeWrites_home.mpr home)
  rename_i away_home
  rw [apply_untouched]
  · exact committed.other b away (fun c mem same => away_home ⟨c, mem, same⟩)
  intro w mem same
  exact away_home (homeWrites_home.mp ⟨w, mem, same⟩)

theorem recovery_writes_committed (committed : Committed start size lh disk cache d) :
    ∃ y, recoveryWrites start d = some (homeWrites lh cache ++ [(start, putHeader y [])]) := by
  obtain ⟨x, header⟩ := committed.header
  obtain ⟨y, writes⟩ := recovery_writes room outside header
  have homes : (List.range lh.n).map (fun i => ((lh.block.getD i 0).toNat, d (start + i + 1))) =
      homeWrites lh cache := by
    apply List.map_congr_left
    intro i small
    rw [committed.logged i (List.mem_range.mp small)]
  exact ⟨y, by rw [writes, homes]⟩

/- What a crash of the commit leaves, by the number of writes that reached the disk. -/
theorem commit_crash (cache : Nat → Block) (disk : Disk) (clear : headerCount (disk start) = 0) (k : Nat) :
    if lh.n < k then
      Quiet start size (updated lh disk cache) (apply disk ((commitWrites start lh cache).take k)) ∨
        Committed start size lh disk cache (apply disk ((commitWrites start lh cache).take k))
    else Quiet start size disk (apply disk ((commitWrites start lh cache).take k)) := by
  by_cases none : lh.n = 0
  · have nothing : lh.block = [] := List.length_eq_zero_iff.mp none
    have same : updated lh disk cache = disk := by
      funext b
      simp [updated, nothing]
    have idle : (commitWrites start lh cache).take k = [] := by
      simp [commitWrites, commit, none]
    rw [same, idle]
    have quiet : Quiet start size disk (apply disk []) := ⟨clear, fun _ _ => rfl⟩
    split
    · exact .inl quiet
    · exact quiet
  obtain ⟨x, y, writes⟩ := commit_writes room outside cache (Nat.pos_of_ne_zero none)
  have length : (logWrites start lh cache).length = lh.n := by simp [logWrites]
  have logArea : ∀ w ∈ logWrites start lh cache, start < w.1 ∧ w.1 ≤ start + lh.n := by
    intro w mem
    simp only [logWrites, List.mem_map, List.mem_range] at mem
    obtain ⟨i, small, rfl⟩ := mem
    dsimp only
    omega
  rw [writes]
  split
  · rename_i reached
    obtain ⟨j, cut⟩ : ∃ j, k = lh.n + (1 + j) := ⟨k - lh.n - 1, by omega⟩
    have parts : (logWrites start lh cache ++ (start, putHeader x lh.block) ::
        (homeWrites lh cache ++ [(start, putHeader y [])])).take k =
        (logWrites start lh cache ++ [(start, putHeader x lh.block)]) ++
          (homeWrites lh cache ++ [(start, putHeader y [])]).take j := by
      rw [cut, ← length, List.take_length_add_append, Nat.add_comm 1 j, List.take_succ_cons]
      simp
    have committed : Committed start size lh disk cache
        (apply disk (logWrites start lh cache ++ [(start, putHeader x lh.block)])) := by
      rw [apply_append]
      refine ⟨⟨x, by simp [apply]⟩, ?_, ?_⟩
      · intro i small
        rw [apply_untouched _ _ _ (by simp; omega)]
        rw [apply_agreeing disk _ (fun a => cache (lh.block.getD (a - start - 1) 0).toNat)]
        · have index : start + i + 1 - start - 1 = i := by omega
          simp only [index]
        · intro w mem
          simp only [logWrites, List.mem_map, List.mem_range] at mem
          obtain ⟨i, _, rfl⟩ := mem
          have index : start + i + 1 - start - 1 = i := by omega
          simp only [index]
        · exact ⟨_, List.mem_map_of_mem (List.mem_range.mpr small), rfl⟩
      intro b away _
      have apart : b ≠ start := fun same => not_outside_start (by omega) (same ▸ away)
      rw [apply_untouched _ _ _ (by simp [Ne.symm apart])]
      apply apply_untouched
      intro w mem same
      have := logArea w mem
      simp only [Outside] at away
      omega
    rw [parts, apply_append]
    rcases committed_writes room outside committed y j with quiet | ⟨_, still⟩
    · exact .inl quiet
    · exact .inr still
  rename_i early
  rw [List.take_append_of_le_length (by omega)]
  refine ⟨?_, ?_⟩
  · rw [apply_untouched]
    · exact clear
    intro w mem same
    have := logArea w (List.mem_of_mem_take mem)
    omega
  intro b away
  apply apply_untouched
  intro w mem same
  have := logArea w (List.mem_of_mem_take mem)
  simp only [Outside] at away
  omega

end

theorem recover_eq_reboot {start : Nat} {ws : List (Nat × Block)}
    (writes : recoveryWrites start d = some ws) : recover start d = reboot start d ws.length := by
  simp [recover, reboot, writes]

/- Recoveries cut off anywhere, any number of times, stay in the same outcome. -/
theorem reboots_quiet (pos : 0 < size) (cuts : List Nat) (d : Disk) (quiet : Quiet start size home d) :
    ∃ d', (cuts.foldlM (reboot start) d).bind (recover start) = some d' ∧ Quiet start size home d' := by
  induction cuts generalizing d with
  | nil =>
    obtain ⟨y, writes⟩ := recovery_writes_quiet quiet
    obtain ⟨d', done, still⟩ := reboot_quiet pos quiet 1
    refine ⟨d', ?_, still⟩
    rw [List.foldlM_nil, Option.pure_def, Option.bind_some, recover_eq_reboot writes]
    exact done
  | cons cut cuts ih =>
    obtain ⟨d', done, still⟩ := reboot_quiet pos quiet cut
    obtain ⟨final, rest, last⟩ := ih d' still
    refine ⟨final, ?_, last⟩
    rw [List.foldlM_cons, done, Option.bind_eq_bind, Option.bind_some]
    exact rest

theorem reboots_committed (room : lh.n < size) (outside : ∀ b ∈ lh.block, Outside start size b.toNat)
    (cuts : List Nat) (d : Disk) (committed : Committed start size lh disk cache d) :
    ∃ d', (cuts.foldlM (reboot start) d).bind (recover start) = some d' ∧
      Quiet start size (updated lh disk cache) d' := by
  have pos : 0 < size := by omega
  induction cuts generalizing d with
  | nil =>
    obtain ⟨y, writes⟩ := recovery_writes_committed room outside committed
    rcases committed_writes room outside committed y (lh.n + 1) with quiet | ⟨early, _⟩
    · refine ⟨_, ?_, quiet⟩
      have whole : (homeWrites lh cache ++ [(start, putHeader y [])]).length = lh.n + 1 := by
        simp [homeWrites]
      rw [List.foldlM_nil, Option.pure_def, Option.bind_some, recover_eq_reboot writes, whole,
        reboot, writes, Option.map_some]
    · omega
  | cons cut cuts ih =>
    obtain ⟨y, writes⟩ := recovery_writes_committed room outside committed
    have done : reboot start d cut = some (apply d ((homeWrites lh cache ++
        [(start, putHeader y [])]).take cut)) := by rw [reboot, writes, Option.map_some]
    rw [List.foldlM_cons, done, Option.bind_eq_bind, Option.bind_some]
    rcases committed_writes room outside committed y cut with quiet | ⟨_, still⟩
    · exact reboots_quiet pos cuts _ quiet
    · exact ih _ still

/-- Crash atomicity from a clear header: every block outside the log is as before the
    commit, or, when the first write_head reached the disk, all home blocks are as cached
    and the rest as before; the header is clear again. -/
theorem commit_crash_atomic {start size : Nat} {lh : LogHeader} (room : lh.n < size)
    (outside : ∀ b ∈ lh.block, Outside start size b.toNat) (cache : Nat → Block) (disk : Disk)
    (clear : headerCount (disk start) = 0) (k : Nat) (cuts : List Nat) :
    ∃ d, afterCrash start lh cache disk k cuts = some d ∧ headerCount (d start) = 0 ∧
      (lh.n < k → ∀ b ∈ lh.block, d b.toNat = cache b.toNat) ∧
      (¬ lh.n < k → ∀ b ∈ lh.block, d b.toNat = disk b.toNat) ∧
      ∀ b, Outside start size b → (∀ c ∈ lh.block, c.toNat ≠ b) → d b = disk b := by
  have crash := commit_crash room outside cache disk clear k
  have positive : 0 < size := by omega
  have away : ∀ b, (∀ c ∈ lh.block, c.toNat ≠ b) → updated lh disk cache b = disk b := by
    intro b none
    rw [updated, if_neg]
    rintro ⟨c, member, same⟩
    exact none c member same
  split at crash
  · rename_i reached
    have settled : ∃ d, afterCrash start lh cache disk k cuts = some d ∧
        Quiet start size (updated lh disk cache) d := by
      rcases crash with quiet | committed
      · exact reboots_quiet positive cuts _ quiet
      · exact reboots_committed room outside cuts _ committed
    obtain ⟨d, done, quiet⟩ := settled
    refine ⟨d, done, quiet.clear, fun _ b member => ?_, fun early => absurd reached early,
      fun b out none => (quiet.home b out).trans (away b none)⟩
    rw [quiet.home _ (outside b member), updated, if_pos ⟨b, member, rfl⟩]
  · rename_i early
    obtain ⟨d, done, quiet⟩ := reboots_quiet positive cuts _ crash
    exact ⟨d, done, quiet.clear, fun reached => absurd reached early,
      fun _ b member => quiet.home _ (outside b member), fun b out _ => quiet.home b out⟩

/- Where the clear header comes from: initlog recovers before any commit, and both a
   recovery and a commit end by writing an empty header. -/
def oneBlock : LogHeader := ⟨[100], by decide⟩

theorem commit_crash_atomic_one_block :
    ∃ d, afterCrash 2 oneBlock (fun _ _ => 9) (fun _ _ => 0) 2 [1, 0] = some d ∧ d 100 = fun _ => 9 := by
  have room : oneBlock.n < 30 := by decide
  have outside : ∀ b ∈ oneBlock.block, Outside 2 30 b.toNat := by simp [oneBlock, Outside]
  obtain ⟨d, done, _, new, _⟩ := commit_crash_atomic room outside (fun _ _ => 9) (fun _ _ => 0)
    (by decide) 2 [1, 0]
  exact ⟨d, done, new (by decide) 100 (by simp [oneBlock])⟩

/-- A commit cut off after k writes, and the recoveries after it cut off at `cuts`. -/
structure Crash where
  lh : LogHeader
  cache : Nat → Block
  k : Nat
  cuts : List Nat

/-- The home blocks after it: a transaction counts when its header has reached the disk. -/
def Crash.outcome (home : Nat → Block) (c : Crash) : Nat → Block :=
  if c.lh.n < c.k then updated c.lh home c.cache else home

theorem crash_quiet {c : Crash} (room : c.lh.n < size) (outside : ∀ b ∈ c.lh.block, Outside start size b.toNat)
    (quiet : Quiet start size home d) :
    ∃ d', afterCrash start c.lh c.cache d c.k c.cuts = some d' ∧ Quiet start size (c.outcome home) d' := by
  have settled : ∃ d', afterCrash start c.lh c.cache d c.k c.cuts = some d' ∧ Quiet start size (c.outcome d) d' := by
    have crash := commit_crash room outside c.cache d quiet.clear c.k
    unfold Crash.outcome
    by_cases reached : c.lh.n < c.k
    · rw [if_pos reached] at crash ⊢
      exact crash.elim (reboots_quiet (by omega) c.cuts _) (reboots_committed room outside c.cuts _)
    · rw [if_neg reached] at crash ⊢
      exact reboots_quiet (by omega) c.cuts _ crash
  obtain ⟨d', done, quiet'⟩ := settled
  refine ⟨d', done, quiet'.clear, fun b away => (quiet'.home b away).trans ?_⟩
  have same := quiet.home b away
  unfold Crash.outcome
  split
  · simp only [updated, same]
  · exact same

/-- Any history of commits, crashes and recoveries leaves the home blocks as the transactions whose headers reached
    the disk make them, one after the other. -/
theorem crash_history (disk : Disk) (clear : headerCount (disk start) = 0) (crashes : List Crash)
    (fits : ∀ c ∈ crashes, c.lh.n < size ∧ ∀ b ∈ c.lh.block, Outside start size b.toNat) :
    ∃ d, crashes.foldlM (fun d c => afterCrash start c.lh c.cache d c.k c.cuts) disk = some d ∧
      headerCount (d start) = 0 ∧ ∀ b, Outside start size b → d b = crashes.foldl Crash.outcome disk b := by
  suffices history : ∀ d home, Quiet start size home d →
      ∃ d', crashes.foldlM (fun d c => afterCrash start c.lh c.cache d c.k c.cuts) d = some d' ∧
        Quiet start size (crashes.foldl Crash.outcome home) d' by
    obtain ⟨d, done, quiet⟩ := history disk disk ⟨clear, fun _ _ => rfl⟩
    exact ⟨d, done, quiet.clear, quiet.home⟩
  induction crashes with
  | nil => exact fun d home quiet => ⟨d, rfl, quiet⟩
  | cons c rest ih =>
    intro d home quiet
    obtain ⟨room, outside⟩ := fits c (by simp)
    obtain ⟨d', done, quiet'⟩ := crash_quiet room outside quiet
    rw [List.foldlM_cons, done, Option.bind_eq_bind, Option.bind_some]
    exact ih (fun c member => fits c (by simp [member])) d' _ quiet'

theorem crash_history_two : ∃ d, [⟨oneBlock, fun _ _ => 9, 2, [1, 0]⟩, ⟨oneBlock, fun _ _ => 5, 1, []⟩].foldlM
    (fun d (c : Crash) => afterCrash 2 c.lh c.cache d c.k c.cuts) (fun _ _ => 0) = some d ∧ d 100 = fun _ => 9 := by
  obtain ⟨d, done, -, home⟩ := @crash_history 2 30 (fun _ _ => 0) (by decide)
    [⟨oneBlock, fun _ _ => 9, 2, [1, 0]⟩, ⟨oneBlock, fun _ _ => 5, 1, []⟩] (by simp [oneBlock, Outside, LogHeader.n])
  refine ⟨d, done, (home 100 (by simp [Outside])).trans ?_⟩
  simp [Crash.outcome, updated, oneBlock, LogHeader.n]

/- A disk whose header still lists block 100, with sevens in the log, and a commit of
   block 100 that crashes before its first write: recovery installs the sevens. -/
def staleDisk : Disk := fun b =>
  if b = 2 then putHeader (fun _ => 0) [100] else if b = 3 then fun _ => 7 else fun _ => 0

theorem stale_header_not_atomic :
    ¬ ∀ (start size : Nat) (lh : LogHeader) (cache : Nat → Block) (disk : Disk) (k : Nat)
      (cuts : List Nat), lh.n < size → lh.block.Nodup → (∀ b ∈ lh.block, Outside start size b.toNat) →
      ∃ d, afterCrash start lh cache disk k cuts = some d ∧
        (lh.n < k → ∀ b ∈ lh.block, d b.toNat = cache b.toNat) ∧
        (¬ lh.n < k → ∀ b ∈ lh.block, d b.toNat = disk b.toNat) := by
  intro claim
  have outside : ∀ b ∈ oneBlock.block, Outside 2 30 b.toNat := by simp [oneBlock, Outside]
  obtain ⟨d, done, _, old⟩ := claim 2 30 oneBlock (fun _ _ => 9) staleDisk 0 [] (by decide)
    (by simp [oneBlock]) outside
  have kept : d 100 = staleDisk 100 := old (by decide) 100 (by simp [oneBlock])
  have room : oneBlock.n < 30 := by decide
  have header : staleDisk 2 = putHeader (fun _ => 0) oneBlock.block := if_pos rfl
  obtain ⟨y, writes⟩ := recovery_writes room outside header
  rw [afterCrash, List.take_zero, List.foldlM_nil, Option.pure_def, Option.bind_some] at done
  rw [apply, List.foldl_nil, recover, writes, Option.map_some, Option.some.injEq] at done
  have seven : d 100 0 = 7 := by
    rw [← done]
    simp [apply, oneBlock, LogHeader.n, List.range_succ, staleDisk]
  rw [kept] at seven
  simp [staleDisk] at seven

end Xv6RedoLog
