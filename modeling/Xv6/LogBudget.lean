import Xv6.Splice
import Xv6.Lib.Journal

/- How many blocks one turn of filewrite passes to log_write. The code of balloc, bmap and
   writei again, with a journal of these blocks. -/
namespace Xv6Logged
open Xv6 Bytes Outcome Ownership Journal Xv6Fs

abbrev J := StateT (Fs × List Nat) (Except String)

def logWrite (b : Nat) (data : Block) : J Unit := record b (Xv6Fs.logWrite b data)

def poke (b : Nat) (data : Block) : J Unit := silent (Xv6Fs.logWrite b data)

def bzero (b : Nat) : J Unit := logWrite b (fun _ => 0)

def ballocBits (b : Nat) : Nat → Nat → J (Option Nat)
  | 0, _ => pure none
  | fuel + 1, bi => do
    let s ← silent get
    if bi < bpb ∧ b + bi < s.sb.size then do
      let data ← silent (bread (s.sb.bblock b))
      if bitClear data bi then do
        logWrite (s.sb.bblock b) (markUsed data bi)
        bzero (b + bi)
        pure (some (b + bi))
      else ballocBits b fuel (bi + 1)
    else pure none

def ballocFrom : Nat → Nat → J Nat
  | 0, _ => throw "balloc: out of blocks"
  | fuel + 1, b => do
    let s ← silent get
    if b < s.sb.size then do
      match ← ballocBits b bpb 0 with
      | some r => pure r
      | none => ballocFrom fuel (b + bpb)
    else throw "balloc: out of blocks"

def balloc : J Nat := do
  let s ← silent get
  ballocFrom (s.sb.size / bpb + 1) 0

def bmapAddr (ip : Ip) (k : Fin (nDirect + 1)) : J Nat := do
  let s ← silent get
  let addr := ((s.itable ip).dn.addrs k).toNat
  if addr = 0 then do
    let b ← balloc
    silent (setAddr ip k b)
    pure b
  else pure addr

def bmapIndirect (addr j : Nat) : J Nat := do
  let data ← silent (bread addr)
  if word data j = 0 then do
    let b ← balloc
    let data ← silent (bread addr)
    logWrite addr (putLE data (4 * j) 4 b)
    pure b
  else pure (word data j)

def bmap (ip : Ip) (bn : Nat) : J Nat :=
  if small : bn < nDirect then bmapAddr ip ⟨bn, Nat.lt_succ_of_lt small⟩
  else if bn - nDirect < nIndirect then do
    let addr ← bmapAddr ip (Fin.last nDirect)
    bmapIndirect addr (bn - nDirect)
  else throw "bmap: out of range"

def iupdate (ip : Ip) : J Unit := do
  let s ← silent get
  record (s.sb.iblock (s.itable ip).inum) (Xv6Fs.iupdate ip)

def writeiLoop (ip : Ip) (src : Buffer) (n : Nat) : Nat → Nat → Nat → J (Nat × Nat)
  | 0, tot, off => pure (tot, off)
  | fuel + 1, tot, off =>
    if tot < n then do
      let b ← bmap ip (off / bSize)
      let data ← silent (bread b)
      let m := chunk n tot off
      let c := src.copied tot m
      if c < m then do
        poke b (putBytes data (off % bSize) c fun t => src.byte (tot + t))
        pure (tot, off)
      else do
        logWrite b (putBytes data (off % bSize) c fun t => src.byte (tot + t))
        writeiLoop ip src n fuel (tot + m) (off + m)
    else pure (tot, off)

def writeiEnd (ip : Ip) (tot off : Nat) : J Int := do
  let s ← silent get
  if off > (s.itable ip).dn.size.toNat then do
    silent (updDn ip fun dn => dn.setSize (UInt32.ofNat off))
    iupdate ip
    pure tot
  else do
    iupdate ip
    pure tot

def writei (ip : Ip) (src : Buffer) (off n : Nat) : J Int := do
  let s ← silent get
  if off > (s.itable ip).dn.size.toNat ∨ addU32 off n < off then pure (-1)
  else if addU32 off n > maxFile * bSize then pure (-1)
  else do
    let r ← writeiLoop ip src n n 0 off
    writeiEnd ip r.1 r.2

def filewriteTurn (ip : Ip) (src : Buffer) (off n1 : Nat) : J Int := do
  silent (ilock ip)
  let r ← writei ip src off n1
  silent (iunlock ip)
  pure r

/- Without the journal this is the code of the file system. -/

theorem erases_ballocBits (b fuel bi : Nat) : Erases (ballocBits b fuel bi) (Xv6Fs.ballocBits b fuel bi) := by
  induction fuel generalizing bi with
  | zero => exact erases_pure _
  | succ fuel ih =>
    refine erases_bind (erases_silent _) fun s => erases_ite (fun _ => ?_) fun _ => erases_pure _
    refine erases_bind (erases_silent _) fun data => erases_ite (fun _ => ?_) fun _ => ih (bi + 1)
    have zeroed : Erases (bzero (b + bi)) (Xv6Fs.bzero (b + bi)) :=
      erases_record (b + bi) (Xv6Fs.logWrite (b + bi) fun _ => 0)
    exact erases_bind (erases_record _ _) fun _ => erases_bind zeroed fun _ => erases_pure _

theorem erases_ballocFrom (fuel b : Nat) : Erases (ballocFrom fuel b) (Xv6Fs.ballocFrom fuel b) := by
  induction fuel generalizing b with
  | zero => exact erases_throw _
  | succ fuel ih =>
    refine erases_bind (erases_silent _) fun s => erases_ite (fun _ => ?_) fun _ => erases_throw _
    refine erases_bind (erases_ballocBits b bpb 0) fun found => ?_
    cases found with
    | some r => exact erases_pure r
    | none => exact ih (b + bpb)

theorem erases_balloc : Erases balloc Xv6Fs.balloc :=
  erases_bind (erases_silent _) fun _ => erases_ballocFrom _ _

theorem erases_bmapAddr (ip : Ip) (k : Fin (nDirect + 1)) : Erases (bmapAddr ip k) (Xv6Fs.bmapAddr ip k) := by
  refine erases_bind (erases_silent _) fun s => erases_ite (fun _ => ?_) fun _ => erases_pure _
  refine erases_bind erases_balloc fun b => ?_
  exact erases_bind (erases_silent _) fun _ => erases_pure _

theorem erases_bmapIndirect (addr j : Nat) : Erases (bmapIndirect addr j) (Xv6Fs.bmapIndirect addr j) := by
  refine erases_bind (erases_silent _) fun s => erases_ite (fun _ => ?_) fun _ => erases_pure _
  refine erases_bind erases_balloc fun b => erases_bind (erases_silent _) fun data => ?_
  exact erases_bind (erases_record _ _) fun _ => erases_pure _

theorem erases_bmap (ip : Ip) (bn : Nat) : Erases (bmap ip bn) (Xv6Fs.bmap ip bn) := by
  unfold bmap Xv6Fs.bmap
  split
  · exact erases_bmapAddr ip _
  refine erases_ite (fun _ => ?_) fun _ => erases_throw _
  exact erases_bind (erases_bmapAddr ip _) fun addr => erases_bmapIndirect addr _

theorem erases_iupdate (ip : Ip) : Erases (iupdate ip) (Xv6Fs.iupdate ip) := by
  intro s log
  rfl

theorem erases_writeiLoop (ip : Ip) (src : Buffer) (n fuel tot off : Nat) :
    Erases (writeiLoop ip src n fuel tot off) (Xv6Fs.writeiLoop ip src n fuel tot off) := by
  induction fuel generalizing tot off with
  | zero => exact erases_pure _
  | succ fuel ih =>
    refine erases_ite (fun _ => ?_) fun _ => erases_pure _
    refine erases_bind (erases_bmap ip _) fun b => erases_bind (erases_silent _) fun data => ?_
    by_cases failed : src.copied tot (chunk n tot off) < chunk n tot off
    · simp only [if_pos failed]
      exact erases_bind (erases_silent _) fun _ => erases_pure _
    simp only [if_neg failed]
    exact erases_bind (erases_record _ _) fun _ => ih _ _

theorem erases_writeiEnd (ip : Ip) (tot off : Nat) : Erases (writeiEnd ip tot off) (Xv6Fs.writeiEnd ip tot off) := by
  refine erases_bind (erases_silent _) fun s => erases_ite (fun _ => ?_) fun _ => ?_
  · refine erases_bind (erases_silent _) fun _ => ?_
    exact erases_bind (erases_iupdate ip) fun _ => erases_pure _
  · exact erases_bind (erases_iupdate ip) fun _ => erases_pure _

theorem erases_writei (ip : Ip) (src : Buffer) (off n : Nat) :
    Erases (writei ip src off n) (Xv6Fs.writei ip src off n) := by
  refine erases_bind (erases_silent _) fun s => erases_ite (fun _ => erases_pure _) fun _ => ?_
  refine erases_ite (fun _ => erases_pure _) fun _ => ?_
  exact erases_bind (erases_writeiLoop ip src n n 0 off) fun r => erases_writeiEnd ip r.1 r.2

theorem erases_filewriteTurn (ip : Ip) (src : Buffer) (off n1 : Nat) :
    Erases (filewriteTurn ip src off n1) (Xv6Fs.filewriteTurn ip src off n1) := by
  refine erases_bind (erases_silent _) fun _ => erases_bind (erases_writei ip src off n1) fun r => ?_
  exact erases_bind (erases_silent _) fun _ => erases_pure r

/- What is written to the log. -/

section
variable {s : Fs} {ip : Ip}

theorem ballocBits_logs (fuel b bi : Nat) (s : Fs) (log : List Nat) (group : b % bpb = 0) :
    Ends (ballocBits b fuel bi) (s, log)
      (fun r t => match r with
        | some c => t.2 = c :: s.sb.bblock c :: log
        | none => t = (s, log))
      (fun _ => True) := by
  induction fuel generalizing bi with
  | zero => exact ends_pure rfl
  | succ fuel ih =>
    refine known_then rfl (ends_ite (fun inside => ?_) fun _ => ends_pure rfl)
    refine known_then rfl (ends_ite (fun clear => ?_) fun _ => ih (bi + 1))
    have block : s.sb.bblock (b + bi) = s.sb.bblock b := by
      simp only [Superblock.bblock, bpb] at *
      omega
    refine known_then rfl (known_then rfl (ends_pure ?_))
    change (b + bi) :: s.sb.bblock b :: log = (b + bi) :: s.sb.bblock (b + bi) :: log
    rw [block]

theorem ballocFrom_logs (fuel b : Nat) (s : Fs) (log : List Nat) (group : b % bpb = 0) :
    Ends (ballocFrom fuel b) (s, log) (fun c t => t.2 = c :: s.sb.bblock c :: log) (fun _ => True) := by
  induction fuel generalizing b with
  | zero => exact ends_throw trivial
  | succ fuel ih =>
    refine known_then rfl (ends_ite (fun _ => ?_) fun _ => ends_throw trivial)
    refine ends_bind (ballocBits_logs bpb b 0 s log group) fun r t found => ?_
    cases r with
    | some c => exact ends_pure found
    | none =>
      rw [found]
      apply ih (b + bpb)
      simp only [bpb] at *
      omega

theorem balloc_logs (s : Fs) (log : List Nat) : Ends balloc (s, log)
    (fun c t => t = (s.setDisk (takeBlock s.sb s.disk c), c :: s.sb.bblock c :: log) ∧ c < s.sb.size)
    (fun _ => True) := by
  have first := ends_erased erases_balloc (balloc_spec s) log
  have snd : Ends balloc (s, log) (fun c t => t.2 = c :: s.sb.bblock c :: log) (fun _ => True) :=
    known_then rfl (ballocFrom_logs _ 0 s log rfl)
  refine ends_mono (ends_and first snd) ?_ fun _ _ => trivial
  rintro c ⟨t, log'⟩ ⟨⟨small, _, rfl⟩, rfl⟩
  exact ⟨rfl, small⟩

def indirect (s : Fs) (ip : Ip) : Nat := (s.itable ip).dn.indirect

/-- bmap logs the new block and its bit map block, and behind the direct blocks the indirect block, with its
    bit map block if it is new. -/
structure BmapLogs (s t : Fs) (ip : Ip) (bn b : Nat) (new : List Nat) : Prop where
  blocks : ∀ c ∈ new, c = b ∨ c = s.sb.bblock b ∨
    nDirect ≤ bn ∧ (c = indirect t ip ∨ indirect s ip = 0 ∧ c = s.sb.bblock (indirect t ip))
  stays : indirect s ip ≠ 0 → indirect t ip = indirect s ip
  found : fileBlock s.disk (s.itable ip).dn bn ≠ 0 → new = []

theorem bmapAddr_logs (ip : Ip) (k : Fin (nDirect + 1)) (s : Fs) (log : List Nat) :
    Ends (bmapAddr ip k) (s, log) (fun b t => if ((s.itable ip).dn.addrs k).toNat = 0 then
          ∃ d, t = (s.put ip d ((s.itable ip).dn.setAddr k (UInt32.ofNat b)), b :: s.sb.bblock b :: log) ∧
            b < s.sb.size else b = ((s.itable ip).dn.addrs k).toNat ∧ t = (s, log)) (fun _ => True) := by
  refine known_then rfl (ends_ite (fun empty => ?_) fun full => ends_pure ?_)
  · apply ends_bind (balloc_logs s log)
    rintro b t ⟨rfl, small⟩
    refine known_then rfl (ends_pure ?_)
    rw [if_pos empty]
    exact ⟨_, rfl, small⟩
  rw [if_neg full]
  exact ⟨rfl, rfl⟩

theorem bmapIndirect_logs (addr j : Nat) (s : Fs) (log : List Nat) : Ends (bmapIndirect addr j) (s, log)
      (fun b t => t.1.itable = s.itable ∧ ∃ new, t.2 = new ++ log ∧
        (∀ c ∈ new, c = b ∨ c = s.sb.bblock b ∨ c = addr) ∧ (word (s.disk addr) j ≠ 0 → new = [])) (fun _ => True) := by
  refine known_then rfl (ends_ite (fun empty => ?_) fun full => ends_pure ?_)
  · apply ends_bind (balloc_logs s log)
    rintro b t ⟨rfl, small⟩
    refine known_then rfl (known_then rfl (ends_pure ⟨rfl, [addr, b, s.sb.bblock b], rfl, ?_, ?_⟩))
    · simp
    · exact fun full => absurd empty full
  · exact ⟨rfl, [], rfl, nofun, fun _ => rfl⟩

theorem bmap_logs (ip : Ip) (bn : Nat) (s : Fs) (log : List Nat) :
    Ends (bmap ip bn) (s, log) (fun b t => ∃ new, t.2 = new ++ log ∧ BmapLogs s t.1 ip bn b new) (fun _ => True) := by
  have entry : ∀ d dn, indirect (s.put ip d dn) ip = dn.indirect := by
    intro d dn
    rw [indirect, put_dn]
  unfold bmap
  split
  case isTrue small =>
    have direct : (⟨bn, Nat.lt_succ_of_lt small⟩ : Fin (nDirect + 1)) ≠ Fin.last nDirect := by
      intro same
      have value := congrArg Fin.val same
      simp only [Fin.val_last] at value
      omega
    apply ends_better (bmapAddr_logs ip _ s log)
    intro b t holds
    split at holds
    case isTrue empty =>
      obtain ⟨d, rfl, _⟩ := holds
      refine ⟨[b, s.sb.bblock b], rfl, by simp, fun _ => ?_, fun full => ?_⟩
      · rw [entry, indirect_setAddr direct, indirect]
      rw [fileBlock_small small] at full
      exact absurd empty full
    case isFalse =>
      obtain ⟨_, rfl⟩ := holds
      exact ⟨[], rfl, nofun, fun _ => rfl, fun _ => rfl⟩
  case isFalse large =>
    refine ends_ite (fun range => ?_) fun _ => ends_throw trivial
    have beyond : nDirect ≤ bn := Nat.le_of_not_lt large
    apply ends_bind (bmapAddr_logs ip _ s log)
    intro addr t holds
    split at holds
    case isTrue absent =>
      obtain ⟨d, rfl, small⟩ := holds
      have holder : ((s.itable ip).dn.setAddr (Fin.last nDirect) (UInt32.ofNat addr)).indirect = addr :=
        toNat_setAddr small
      apply ends_better (bmapIndirect_logs addr _ _ _)
      rintro b ⟨t, log'⟩ ⟨table, new, rfl, blocks, found⟩
      have now : indirect t ip = addr := by
        change (t.itable ip).dn.indirect = addr
        rw [table, put_dn, holder]
      refine ⟨new ++ [addr, s.sb.bblock addr], by simp, ?_, fun present => absurd absent present, fun full => ?_⟩
      swap
      · exact absurd (fileBlock_no_indirect large absent) full
      intro c mem
      rw [now]
      rcases List.mem_append.mp mem with later | first
      · rcases blocks c later with same | same | same
        · exact .inl same
        · exact .inr (.inl same)
        · exact .inr (.inr ⟨beyond, .inl same⟩)
      rcases List.mem_pair.mp first with same | same
      · exact .inr (.inr ⟨beyond, .inl same⟩)
      · exact .inr (.inr ⟨beyond, .inr ⟨absent, same⟩⟩)
    case isFalse present =>
      obtain ⟨rfl, rfl⟩ := holds
      apply ends_better (bmapIndirect_logs _ _ _ _)
      rintro b ⟨t, log'⟩ ⟨table, new, rfl, blocks, found⟩
      have now : indirect t ip = indirect s ip := by
        change (t.itable ip).dn.indirect = _
        rw [table]
        rfl
      refine ⟨new, rfl, ?_, fun _ => now, fun full => found ?_⟩
      swap
      · rw [fileBlock_large large range present] at full
        exact full
      intro c mem
      rw [now]
      rcases blocks c mem with same | same | same
      · exact .inl same
      · exact .inr (.inl same)
      · exact .inr (.inr ⟨beyond, .inl same⟩)

def turnBlocks (sb : Superblock) (d : Disk) (dn dn' : Dinode) (bn b : Nat) : Finset Nat :=
  if fileBlock d dn bn ≠ 0 then {b}
  else if dn.indirect = 0 ∧ nDirect ≤ bn then {b, sb.bblock b, sb.bblock dn'.indirect}
  else {b, sb.bblock b}

theorem turnBlocks_card (sb : Superblock) (d : Disk) (dn dn' : Dinode) (bn b : Nat)
    (holder : nDirect ≤ bn → dn'.indirect ≠ 0) (kept : dn.indirect ≠ 0 → dn'.indirect ≠ 0) :
    (turnBlocks sb d dn dn' bn b).card + (if fileBlock d dn bn ≠ 0 then 1 else 0) +
      (if dn'.indirect = 0 then 1 else 0) ≤ 2 + if dn.indirect = 0 then 1 else 0 := by
  unfold turnBlocks
  have three := Finset.card_le_three (a := b) (b := sb.bblock b) (c := sb.bblock dn'.indirect)
  have two := Finset.card_le_two (a := b) (b := sb.bblock b)
  by_cases present : fileBlock d dn bn ≠ 0
  · simp only [if_pos present, Finset.card_singleton]
    by_cases absent : dn.indirect = 0
    · simp only [if_pos absent]
      split <;> omega
    simp only [if_neg absent, if_neg (kept absent)]
    omega
  simp only [if_neg present]
  by_cases absent : dn.indirect = 0
  · by_cases far : nDirect ≤ bn
    · simp only [if_pos absent, if_pos (And.intro absent far), if_neg (holder far)]
      omega
    simp only [if_pos absent, if_neg fun both : dn.indirect = 0 ∧ nDirect ≤ bn => far both.2]
    split <;> omega
  simp only [if_neg absent, if_neg (kept absent), if_neg fun both : dn.indirect = 0 ∧ nDirect ≤ bn => absent both.1]
  omega

variable {dns : Nat → Dinode} {i : Nat} {d : Disk} {dn : Dinode}

/-- What the rest of the loop logs: k turns, the first in a block that may be there. -/
def LoopLogs (d : Disk) (dn : Dinode) (off k ind : Nat) (new : List Nat) : Prop :=
  ∃ blocks : Finset Nat, blocks.card + (if 0 < k ∧ fileBlock d dn (off / bSize) ≠ 0 then 1 else 0) ≤
      2 * k + (if dn.indirect = 0 then 1 else 0) ∧
    ∀ c ∈ new, c ∈ blocks ∨ c = ind

theorem loopLogs_nil (d : Disk) (dn : Dinode) (off k ind : Nat) : LoopLogs d dn off k ind [] := by
  refine ⟨∅, ?_, nofun⟩
  rw [Finset.card_empty]
  split <;> omega

theorem loopLogs_cons (sb : Superblock) (b : Nat) {d d' : Disk} {dn dn' : Dinode} {off off' k ind : Nat}
    {turn later : List Nat}
    (holder : nDirect ≤ off / bSize → dn'.indirect ≠ 0) (kept : dn.indirect ≠ 0 → dn'.indirect ≠ 0)
    (turns : ∀ c ∈ turn, c ∈ turnBlocks sb d dn dn' (off / bSize) b ∨ c = ind)
    (rest : LoopLogs d' dn' off' k ind later) : LoopLogs d dn off (k + 1) ind (later ++ turn) := by
  obtain ⟨blocks, few, covers⟩ := rest
  have first := turnBlocks_card sb d dn dn' (off / bSize) b holder kept
  refine ⟨blocks ∪ turnBlocks sb d dn dn' (off / bSize) b, ?_, fun c mem => ?_⟩
  · have union := Finset.card_union_le blocks (turnBlocks sb d dn dn' (off / bSize) b)
    simp only [Nat.succ_pos, true_and]
    omega
  rw [Finset.mem_union]
  rcases List.mem_append.mp mem with after | now
  · rcases covers c after with old | same
    · exact .inl (.inl old)
    · exact .inr same
  rcases turns c now with new | same
  · exact .inl (.inr new)
  · exact .inr same

theorem turn_covered {sb : Superblock} {t : Fs} {bn b : Nat} {new : List Nat} (sbs : s.sb = sb)
    (logs : BmapLogs s t ip bn b new) (turn : List Nat) (either : turn = new ∨ turn = b :: new) :
    ∀ c ∈ turn, c ∈ turnBlocks sb s.disk (s.itable ip).dn (t.itable ip).dn bn b ∨ nDirect ≤ bn ∧ c = indirect t ip := by
  have own : b ∈ turnBlocks sb s.disk (s.itable ip).dn (t.itable ip).dn bn b := by
    unfold turnBlocks
    split
    · exact Finset.mem_singleton_self b
    · split <;> exact Finset.mem_insert_self _ _
  have mapped : ∀ c ∈ new, c ∈ turnBlocks sb s.disk (s.itable ip).dn (t.itable ip).dn bn b ∨
      nDirect ≤ bn ∧ c = indirect t ip := by
    intro c mem
    by_cases present : fileBlock s.disk (s.itable ip).dn bn ≠ 0
    · rw [logs.found present] at mem
      cases mem
    unfold turnBlocks
    rw [if_neg present, ← sbs]
    rcases logs.blocks c mem with rfl | rfl | ⟨far, same | ⟨absent, rfl⟩⟩
    · left
      split <;> simp
    · left
      split <;> simp
    · exact .inr ⟨far, same⟩
    left
    rw [if_pos ⟨absent, far⟩]
    change _ ∈ ({b, s.sb.bblock b, s.sb.bblock (indirect t ip)} : Finset Nat)
    simp
  intro c mem
  rcases either with rfl | rfl
  · exact mapped c mem
  rcases List.mem_cons.mp mem with rfl | later
  · exact .inl own
  · exact mapped c later

theorem poke_put (s : Fs) (ip : Ip) (d : Disk) (dn : Dinode) (b : Nat) (data : Block) (log : List Nat) :
    poke b data (s.put ip d dn, log) = .ok ((), (s.put ip (Function.update d b data) dn, log)) := rfl

theorem logWrite_journal (s : Fs) (ip : Ip) (d : Disk) (dn : Dinode) (b : Nat) (data : Block) (log : List Nat) :
    logWrite b data (s.put ip d dn, log) = .ok ((), (s.put ip (Function.update d b data) dn, b :: log)) := rfl

theorem writeiLoop_logs (s : Fs) (ip : Ip) (src : Buffer) (n : Nat) (lt : i < s.sb.ninodes)
    (live : dn.type ≠ 0) (fuel tot off : Nat) (range : off + (n - tot) ≤ maxFile * bSize)
    (owned : Owned s.sb (Function.update dns i dn) d) (log : List Nat) :
    Ends (writeiLoop ip src n fuel tot off) (s.put ip d dn, log) (fun _ t => ∃ new, t.2 = new ++ log ∧
        (dn.indirect ≠ 0 → indirect t.1 ip = dn.indirect) ∧
        LoopLogs d dn off (touched off (n - tot)).length (indirect t.1 ip) new) (fun _ => True) := by
  induction fuel generalizing tot off d dn log with
  | zero =>
    refine ends_pure ⟨[], rfl, fun _ => ?_, loopLogs_nil ..⟩
    rw [indirect, put_dn]
  | succ fuel ih =>
    refine ends_ite (fun more => ?_) fun _ => ?_
    · have pos : 0 < chunk n tot off := chunk_pos more
      have bound := chunk_le n tot off
      have fits := chunk_fits n tot off
      have index : off / bSize < maxFile := by
        simp only [bSize] at *
        omega
      rw [touched_chunk more, List.length_cons]
      have both := ends_and (ends_erased (erases_bmap ip (off / bSize)) (bmap_spec s ip lt live owned index) log)
        (bmap_logs ip (off / bSize) (s.put ip d dn) log)
      refine ends_step both (fun _ _ => trivial) ?_
      rintro b ⟨t, log'⟩ ⟨⟨d', dn', rfl, mapped, got⟩, new, rfl, logs⟩
      have few := copied_le src tot (chunk n tot off)
      have cover := turn_covered rfl logs
      simp only [put_dn, put_disk, indirect] at cover
      have stays := logs.stays
      simp only [put_dn, indirect] at stays
      refine known_then rfl (ends_ite (fun failed => ?_) fun copied => ?_)
      · refine known_then (poke_put s ip d' dn' b _ (new ++ log)) (ends_pure ⟨new, rfl, ?_, ?_⟩)
        · rw [indirect, put_dn]
          exact stays
        rw [indirect, put_dn]
        refine loopLogs_cons s.sb b got.indirect got.kept (fun c mem => ?_) (loopLogs_nil d' dn' off _ _)
        exact (cover new (.inl rfl) c mem).imp id And.right
      obtain ⟨part, _⟩ := written_chunk (src.copied tot (chunk n tot off))
        (fun t => src.byte (tot + t)) lt live mapped got (by omega)
      have live' : dn'.type ≠ 0 := by
        rw [mapped.fields]
        exact live
      apply known_then (logWrite_journal s ip d' dn' b _ (new ++ log))
      apply ends_better (ih live' (tot + chunk n tot off) (off + chunk n tot off) (by omega) part.owned _)
      rintro r t ⟨later, list, still, rest⟩
      have final : dn'.indirect ≠ 0 → indirect t.1 ip = dn'.indirect := still
      refine ⟨later ++ (b :: new), ?_, fun present => ?_, ?_⟩
      · rw [list]
        simp
      · have kept := stays present
        rw [still (by rwa [kept]), kept]
      refine loopLogs_cons s.sb b got.indirect got.kept (fun c mem => ?_) rest
      rcases cover (b :: new) (.inr rfl) c mem with lt | ⟨far, same⟩
      · exact .inl lt
      rw [final (got.indirect far)]
      exact .inr same
    refine ends_pure ⟨[], rfl, fun _ => ?_, loopLogs_nil ..⟩
    rw [indirect, put_dn]

def maxWrite : Nat := ((maxOpBlocks - 1 - 1 - 2) / 2) * bSize

theorem touched_few {off n : Nat} (short : n ≤ maxWrite) :
    (touched off n).length ≤ 3 ∨ (touched off n).length = 4 ∧ off % bSize ≠ 0 := by
  have limit : maxWrite = 3072 := rfl
  unfold touched
  split
  · exact .inl (Nat.zero_le _)
  rw [List.length_range']
  simp only [bSize] at *
  omega

theorem writeiEnd_logs (ip : Ip) (tot off : Nat) (s : Fs) (log : List Nat) :
    Ends (writeiEnd ip tot off) (s, log) (fun _ t => t.2 = s.sb.iblock (s.itable ip).inum :: log) (fun _ => True) := by
  refine known_then rfl (ends_ite (fun _ => ?_) fun _ => ?_)
  · refine known_then rfl (known_then rfl (ends_pure ?_))
    change s.sb.iblock ((s.setDn ip _).itable ip).inum :: log = _
    rw [Fs.setDn, setIp_entry]
    rfl
  · exact known_then rfl (ends_pure rfl)

theorem budget_kept {d : Disk} {dn : Dinode} {off k ind inode : Nat} {new : List Nat} (logs : LoopLogs d dn off k ind new)
    (few : k ≤ 3 ∨ k = 4 ∧ fileBlock d dn (off / bSize) ≠ 0) : (inode :: new).toFinset.card ≤ maxOpBlocks := by
  obtain ⟨blocks, count, covers⟩ := logs
  have inside : (inode :: new).toFinset ⊆ insert inode (insert ind blocks) := by
    intro c mem
    rw [List.mem_toFinset] at mem
    rw [Finset.mem_insert, Finset.mem_insert]
    rcases List.mem_cons.mp mem with same | later
    · exact .inl same
    rcases covers c later with old | same
    · exact .inr (.inr old)
    · exact .inr (.inl same)
  have most := Finset.card_le_card inside
  have outer := Finset.card_insert_le inode (insert ind blocks)
  have inner := Finset.card_insert_le ind blocks
  simp only [maxOpBlocks]
  rcases few with three | ⟨four, present⟩
  · split at count <;> split at count <;> omega
  rw [if_pos ⟨by omega, present⟩] at count
  split at count <;> omega

theorem writei_logs {s : Fs} {ip : Ip} (inv : Inv s) (held : Held s ip) (src : Buffer) (off n : UInt32)
    (short : n.toNat ≤ maxWrite) :
    Ends (writei ip src off.toNat n.toNat) (s, []) (fun _ t => t.2.toFinset.card ≤ maxOpBlocks) (fun _ => True) := by
  refine known_then rfl (ends_ite (fun _ => ends_pure (Nat.zero_le _)) fun first => ?_)
  refine ends_ite (fun _ => ends_pure (Nat.zero_le _)) fun snd => ?_
  have range : off.toNat + (n.toNat - 0) ≤ maxFile * bSize := by
    rw [not_or] at first
    have small := n.toNat_lt
    have bound := off.toNat_lt
    unfold addU32 at first snd
    omega
  have loop := writeiLoop_logs s ip src n.toNat (held_bounded inv held) held.live n.toNat 0 off.toNat range
    (held_owned inv held) []
  rw [put_self] at loop
  apply ends_bind loop
  rintro r ⟨t, log⟩ ⟨new, list, _, logs⟩
  change log = new ++ [] at list
  apply ends_better (writeiEnd_logs ip r.1 r.2 t log)
  intro _ u written
  rw [written, list, List.append_nil]
  apply budget_kept logs
  rw [Nat.sub_zero]
  refine (touched_few short).imp id fun ⟨four, inside⟩ => ⟨four, ?_⟩
  apply held_full inv held _
  simp only [bSize] at *
  omega

/-- The blocks that one turn of filewrite passes to log_write. -/
theorem chunk_within_reservation {s : Fs} {ip : Ip} (inv : Inv s) (active : 0 < (s.itable ip).ref)
    (known : (s.itable ip).inum < s.sb.ninodes) (live : (view s (s.itable ip).inum).type ≠ 0) (src : Buffer)
    (off n1 : UInt32) (short : n1.toNat ≤ maxWrite) :
    Ends (filewriteTurn ip src off.toNat n1.toNat) (s, []) (fun _ t => t.2.toFinset.card ≤ maxOpBlocks)
      (fun msg => msg = "deadlock" ∨ msg = "balloc: out of blocks") := by
  have locks := ends_silent (ilock_held inv active known live) ([] : List Nat)
  refine ends_step locks (fun _ panics => Or.inl panics.1) ?_
  rintro _ ⟨t, log⟩ ⟨⟨same, held, locked⟩, empty⟩
  change log = [] at empty
  rw [empty]
  have both := ends_and (writei_logs same.inv held src off n1 short) (ends_erased
    (erases_writei ip src off.toNat n1.toNat) (ends_and (writei_entry same.inv held src n1.toNat_lt)
      (inv_writei same.inv held src off.toNat n1.toNat_lt)) [])
  refine ends_step both (fun _ panics => Or.inr panics.2.1) ?_
  rintro r ⟨u, log⟩ ⟨few, ⟨still, held'⟩, inv'⟩
  have unlocks := ends_silent (iunlock_held inv' held' (still.trans locked)) log
  refine ends_step unlocks (fun _ impossible => impossible.elim) ?_
  rintro _ v ⟨_, same⟩
  refine ends_pure ?_
  rw [same]
  exact few

end

def tinyOpen : Fs := (tinyFs 0xff).setIp 0 (((tinyFs 0xff).itable 0).setLocked false)

theorem tinyOpen_inv : Inv tinyOpen := by
  have inv : Inv (tinyFs 0xff) := (inv_iff _).mpr ⟨tiny_full, by decide +kernel⟩
  have shown := (view_cached inv.table (tiny_held 0xff).cached).symm
  have same : SameFiles (tinyFs 0xff) tinyOpen 0 :=
    sameFiles_entry inv (tiny_held 0xff).cached.1 (by decide) rfl rfl rfl shown
  exact same.inv

/-- One byte to an empty file: the bit map, the block and the inode. -/
theorem chunk_within_reservation_one_byte : ∃ r t, filewriteTurn 0 ⟨fun _ => 7, none⟩ 0 1 (tinyOpen, []) = .ok (r, t) ∧
    t.2 = [2, 8, 8, 3] ∧ t.2.toFinset.card ≤ maxOpBlocks := by
  have writes : returns (filewriteTurn 0 ⟨fun _ => 7, none⟩ 0 1) (tinyOpen, []) (fun _ t => decide (t.2 = [2, 8, 8, 3])) =
    true := by decide +kernel
  obtain ⟨r, t, result, logged⟩ := returns_ok writes
  have inv := tinyOpen_inv
  have active : 0 < (tinyOpen.itable 0).ref := by decide +kernel
  have known : (tinyOpen.itable 0).inum < tinyOpen.sb.ninodes := by decide +kernel
  have live : (view tinyOpen (tinyOpen.itable 0).inum).type ≠ 0 := by decide +kernel
  clear writes
  generalize tinyOpen = s at inv active known live result ⊢
  have budget := chunk_within_reservation inv active known live ⟨fun _ => 7, none⟩ 0 1 (by decide)
  have few := ends_ok budget result
  exact ⟨r, t, result, of_decide_eq_true logged, few⟩

end Xv6Logged
