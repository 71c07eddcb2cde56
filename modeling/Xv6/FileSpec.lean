import Xv6.BmapSpec

/- What readi and writei do to the contents of files. -/
namespace Xv6Fs
open Xv6 Bytes Outcome Ownership Function

def Full (d : Disk) (dn : Dinode) : Prop :=
  ∀ bn, bn * bSize < dn.size.toNat → fileBlock d dn bn ≠ 0

theorem full_byte {d : Disk} {dn : Dinode} (full : Full d dn) {x : Nat} (below : x < dn.size.toNat) :
    fileBlock d dn (x / bSize) ≠ 0 := by
  apply full
  exact Nat.lt_of_le_of_lt (Nat.div_mul_le_self x bSize) below

theorem full_size {d : Disk} {dn : Dinode} (full : Full d dn) : dn.size.toNat ≤ maxFile * bSize := by
  by_contra large
  have missing : fileBlock d dn maxFile = 0 := by
    rw [fileBlock, dif_neg (by decide), dif_neg (by decide)]
  exact full maxFile (by omega) missing

theorem byteAt_chunk {d : Disk} {dn : Dinode} {off t : Nat}
    (present : fileBlock d dn (off / bSize) ≠ 0) (lt : off % bSize + t < bSize) :
    byteAt d dn (off + t) = d (fileBlock d dn (off / bSize)) (off % bSize + t) := by
  have block : (off + t) / bSize = off / bSize := by
    simp only [bSize] at *
    omega
  have index : (off + t) % bSize = off % bSize + t := by
    simp only [bSize] at *
    omega
  rw [byteAt, block, index, if_neg present]

theorem chunk_fits (n tot off : Nat) : off % bSize + chunk n tot off ≤ bSize := by
  have lt : off % bSize < bSize := Nat.mod_lt _ (by decide)
  unfold chunk
  omega

theorem chunk_inside {n tot off t : Nat} (small : t < chunk n tot off) : off % bSize + t < bSize := by
  have := chunk_fits n tot off
  omega

theorem chunk_le (n tot off : Nat) : chunk n tot off ≤ n - tot := Nat.min_le_left _ _

theorem chunk_pos {n tot off : Nat} (more : tot < n) : 0 < chunk n tot off := by
  have lt : off % bSize < bSize := Nat.mod_lt _ (by decide)
  unfold chunk
  omega

theorem copied_le (buf : Buffer) (tot m : Nat) : buf.copied tot m ≤ m := by
  unfold Buffer.copied
  split
  · exact Nat.le_refl m
  · exact Nat.min_le_left _ _

theorem copied_all {buf : Buffer} (mapped : buf.limit = none) (tot m : Nat) : buf.copied tot m = m := by
  rw [Buffer.copied, mapped]

def fileBytes (d : Disk) (dn : Dinode) (off n : Nat) : List UInt8 :=
  (List.range n).map fun t => byteAt d dn (off + t)

theorem fileBytes_add (d : Disk) (dn : Dinode) (off m n : Nat) :
    fileBytes d dn off (m + n) = fileBytes d dn off m ++ fileBytes d dn (off + m) n := by
  unfold fileBytes
  rw [List.range_add, List.map_append, List.map_map]
  congr 1
  apply List.map_congr_left
  intro t _
  simp only [Function.comp_apply, Nat.add_assoc]

theorem readiLoop_ok {s : Fs} {ip : Ip} (dst : Buffer) {n : Nat} (fuel tot off : Nat)
    (out : List UInt8) (full : Full s.disk (s.itable ip).dn) (enough : n ≤ tot + fuel)
    (sofar : tot ≤ n) (below : off + (n - tot) ≤ (s.itable ip).dn.size.toNat) :
    ∃ r, readiLoop ip dst n fuel tot off out s = .ok (r, s) ∧
      (dst.limit = none → r = ((n : Int), out ++ fileBytes s.disk (s.itable ip).dn off (n - tot))) := by
  induction fuel generalizing tot off out with
  | zero =>
    have done : tot = n := by omega
    subst tot
    refine ⟨_, rfl, ?_⟩
    intro _
    simp [fileBytes]
  | succ fuel ih =>
    unfold readiLoop
    split
    · rename_i more
      have present := full_byte full (x := off) (by omega)
      have pos : 0 < chunk n tot off := chunk_pos more
      have bound := chunk_le n tot off
      have run : ∀ f : Nat → M (Int × List UInt8), (bmap ip (off / bSize) >>= f) s =
          f (fileBlock s.disk (s.itable ip).dn (off / bSize)) s := by
        intro f
        change (bmap ip (off / bSize) s >>= fun r => f r.1 r.2) = _
        rw [bmap_ok present]
        rfl
      rw [run]
      change ∃ r, (if dst.copied tot (chunk n tot off) < chunk n tot off then _ else
        readiLoop ip dst n fuel (tot + chunk n tot off) (off + chunk n tot off) _ :
          M (Int × List UInt8)) s = _ ∧ _
      split
      · rename_i failed
        refine ⟨_, rfl, ?_⟩
        intro mapped
        rw [copied_all mapped] at failed
        omega
      obtain ⟨r, res, exact⟩ := ih (tot + chunk n tot off) (off + chunk n tot off)
        (out ++ (List.range (dst.copied tot (chunk n tot off))).map fun t =>
          s.disk (fileBlock s.disk (s.itable ip).dn (off / bSize)) (off % bSize + t))
        (by omega) (by omega) (by omega)
      refine ⟨r, res, ?_⟩
      intro mapped
      have split : n - tot = chunk n tot off + (n - (tot + chunk n tot off)) := by omega
      rw [exact mapped, copied_all mapped, split, fileBytes_add, ← List.append_assoc]
      congr 3
      unfold fileBytes
      apply List.map_congr_left
      intro t mem
      rw [byteAt_chunk present (chunk_inside (List.mem_range.mp mem))]
    refine ⟨_, rfl, ?_⟩
    intro _
    have done : tot = n := by omega
    subst tot
    simp [fileBytes]

def readCount (dn : Dinode) (off n : Nat) : Nat := min n (dn.size.toNat - off)

theorem readi_ok {s : Fs} {ip : Ip} (dst : Buffer) (off : Nat) {n : Nat} (full : Full s.disk (s.itable ip).dn)
    (small : n < 0x100000000) : ∃ r, readi ip dst off n s = .ok (r, s) ∧
      (dst.limit = none → off + n < 0x100000000 ∨ off > (s.itable ip).dn.size.toNat → r = ((readCount (s.itable ip).dn off n : Int),
        fileBytes s.disk (s.itable ip).dn off (readCount (s.itable ip).dn off n))) := by
  have bound := (s.itable ip).dn.size.toNat_lt
  change ∃ r, (if off > (s.itable ip).dn.size.toNat ∨ addU32 off n < off then pure (0, []) else
    readiLoop ip dst _ _ 0 off [] : M (Int × List UInt8)) s = _ ∧ _
  split
  · rename_i refused
    refine ⟨_, rfl, ?_⟩
    intro _ nowrap
    have beyond : off > (s.itable ip).dn.size.toNat := by
      unfold addU32 at refused
      omega
    have none : readCount (s.itable ip).dn off n = 0 := by
      unfold readCount
      omega
    rw [none]
    rfl
  rename_i accepted
  rw [not_or] at accepted
  have sum : addU32 off n = off + n := by
    unfold addU32 at accepted ⊢
    omega
  have count : (if addU32 off n > (s.itable ip).dn.size.toNat then
      (s.itable ip).dn.size.toNat - off else n) = readCount (s.itable ip).dn off n := by
    unfold readCount
    rw [sum]
    split <;> omega
  rw [count]
  have below : off + (readCount (s.itable ip).dn off n - 0) ≤ (s.itable ip).dn.size.toNat := by
    unfold readCount
    omega
  obtain ⟨r, res, exact⟩ := readiLoop_ok dst (readCount (s.itable ip).dn off n) 0 off [] full
    (by omega) (by omega) below
  refine ⟨r, res, ?_⟩
  intro mapped _
  rw [exact mapped, List.nil_append, Nat.sub_zero]

structure Written (sb : Superblock) (dns : Nat → Dinode) (i : Nat) (d : Disk) (dn : Dinode)
    (d' : Disk) (dn' : Dinode) (off k : Nat) (byte : Nat → UInt8) (cost : Nat) : Prop where
  owned : Owned sb (Function.update dns i dn') d'
  bytes : ∀ j < sb.ninodes, (Function.update dns i dn j).type ≠ 0 → ∀ x,
    byteAt d' (Function.update dns i dn' j) x =
      if j = i ∧ off ≤ x ∧ x < off + k then byte (x - off)
      else byteAt d (Function.update dns i dn j) x
  kept : ∀ j < sb.ninodes, (Function.update dns i dn j).type ≠ 0 → ∀ bn,
    fileBlock d (Function.update dns i dn j) bn ≠ 0 →
      fileBlock d' (Function.update dns i dn' j) bn = fileBlock d (Function.update dns i dn j) bn
  fields : dn' = { dn with addrs := dn'.addrs }
  dinodes : ∀ j < sb.ninodes, getDinode sb d' j = getDinode sb d j
  blocks : (freeBlocks sb d').card + cost = (freeBlocks sb d).card

section
variable {sb : Superblock} {dns : Nat → Dinode} {i : Nat} {d d' d'' : Disk} {dn dn' dn'' : Dinode}
  {off : Nat} {byte : Nat → UInt8}

theorem written_of_mapped {cost : Nat} (mapped : Mapped sb dns i d dn d' dn' cost) :
    Written sb dns i d dn d' dn' off 0 byte cost where
  owned := mapped.owned
  bytes := by
    intro j inside live x
    rw [if_neg (by omega)]
    exact mapped.grown.bytes j inside live x
  kept := mapped.grown.blocks
  fields := mapped.fields
  dinodes := mapped.dinodes
  blocks := mapped.blocks

theorem update_type (fields : dn' = { dn with addrs := dn'.addrs }) (j : Nat) :
    (update dns i dn' j).type = (update dns i dn j).type := by
  by_cases same : j = i
  · subst j
    rw [update_self, update_self, fields]
  · rw [update_of_ne same, update_of_ne same]

theorem written_trans {k k' c c' : Nat} (first : Written sb dns i d dn d' dn' off k byte c)
    (snd : Written sb dns i d' dn' d'' dn'' (off + k) k' (fun t => byte (k + t)) c') :
    Written sb dns i d dn d'' dn'' off (k + k') byte (c + c') where
  owned := snd.owned
  bytes := by
    intro j inside live x
    have live' : (update dns i dn' j).type ≠ 0 := by rwa [update_type first.fields]
    rw [snd.bytes j inside live' x, first.bytes j inside live x]
    by_cases here : j = i
    · by_cases early : x < off + k
      · rw [if_neg (by omega)]
        by_cases started : off ≤ x
        · rw [if_pos ⟨here, started, early⟩, if_pos ⟨here, started, by omega⟩]
        · rw [if_neg (by omega), if_neg (by omega)]
      by_cases late : x < off + (k + k')
      · rw [if_pos ⟨here, by omega, by omega⟩, if_pos ⟨here, by omega, late⟩]
        congr 1
        omega
      · rw [if_neg (by omega), if_neg (by omega), if_neg (by omega)]
    rw [if_neg (fun holds => here holds.1), if_neg (fun holds => here holds.1), if_neg (fun holds => here holds.1)]
  kept := by
    intro j inside live bn nz
    have live' : (update dns i dn' j).type ≠ 0 := by rwa [update_type first.fields]
    have middle := first.kept j inside live bn nz
    rw [snd.kept j inside live' bn (by rwa [middle]), middle]
  fields := by
    rw [snd.fields, first.fields]
  dinodes := by
    intro j inside
    rw [snd.dinodes j inside, first.dinodes j inside]
  blocks := by
    have := first.blocks
    have := snd.blocks
    omega

variable (byte) in
theorem written_block (c : Nat) (inside : i < sb.ninodes) (live : dn.type ≠ 0)
    (owned : Owned sb (update dns i dn) d) (present : fileBlock d dn (off / bSize) ≠ 0)
    (fits : off % bSize + c ≤ bSize) : Written sb dns i d dn (update d (fileBlock d dn (off / bSize))
      (putBytes (d (fileBlock d dn (off / bSize))) (off % bSize) c byte)) dn off c byte 0 := by
  have here : update dns i dn i = dn := update_self _ _ _
  have live' : (update dns i dn i).type ≠ 0 := by rwa [here]
  have present' : fileBlock d (update dns i dn i) (off / bSize) ≠ 0 := by rwa [here]
  obtain ⟨plain, blocks, bytes⟩ := fileBlock_write owned inside live' present'
    (putBytes (d (fileBlock d dn (off / bSize))) (off % bSize) c byte)
  obtain ⟨slot, _, same⟩ := fileBlock_slot present'
  have data : sb.Data (fileBlock d dn (off / bSize)) := by
    have area := owned_slot owned inside live' (by rwa [same])
    rwa [same, here] at area
  rw [here] at plain blocks bytes
  refine ⟨owned_write owned data plain, ?_, ?_, rfl, ?_, ?_⟩
  · intro j bounded used x
    rw [bytes j bounded used x]
    by_cases target : j = i ∧ x / bSize = off / bSize
    · obtain ⟨rfl, block⟩ := target
      rw [if_pos ⟨rfl, block⟩, here]
      by_cases range : off ≤ x ∧ x < off + c
      · have index : x % bSize = off % bSize + (x - off) := by
          simp only [bSize] at *
          omega
        rw [if_pos ⟨rfl, range⟩, index, putBytes_inside _ _ _ _ _ (by omega)]
      rw [if_neg (fun holds => range holds.2), byteAt, block, if_neg present]
      apply putBytes_outside
      simp only [bSize] at *
      omega
    rw [if_neg target, if_neg]
    rintro ⟨rfl, lower, upper⟩
    apply target
    refine ⟨rfl, ?_⟩
    simp only [bSize] at *
    omega
  · intro j bounded used bn _
    exact blocks j bounded used bn
  · intro j bounded
    have low := sb.iblock_lt bounded
    have above := data.1
    have below := sb.bmapstart_lt
    exact getDinode_update sb (by omega)
  · rw [freeBlocks_write data, Nat.add_zero]

def touched (off n : Nat) : List Nat :=
  if n = 0 then [] else List.range' (off / bSize) ((off + n - 1) / bSize - off / bSize + 1)

def missing (d : Disk) (dn : Dinode) (bns : List Nat) : Nat :=
  bns.countP (fileBlock d dn · = 0) +
    if dn.indirect = 0 ∧ ∃ bn ∈ bns, nDirect ≤ bn then 1 else 0

theorem touched_chunk {n tot : Nat} (more : tot < n) : touched off (n - tot) =
      off / bSize :: touched (off + chunk n tot off) (n - (tot + chunk n tot off)) := by
  have first : chunk n tot off = min (n - tot) (bSize - off % bSize) := rfl
  rw [touched, if_neg (by omega), List.range'_succ, touched]
  congr 1
  by_cases last : n - (tot + chunk n tot off) = 0
  · rw [if_pos last]
    have one : (off + (n - tot) - 1) / bSize - off / bSize = 0 := by
      simp only [bSize] at *
      omega
    rw [one]
    rfl
  rw [if_neg last]
  have start : (off + chunk n tot off) / bSize = off / bSize + 1 := by
    simp only [bSize] at *
    omega
  have stop : off + chunk n tot off + (n - (tot + chunk n tot off)) - 1 = off + (n - tot) - 1 := by
    omega
  have later : off / bSize + 1 ≤ (off + (n - tot) - 1) / bSize := by
    simp only [bSize] at *
    omega
  rw [start, stop]
  congr 1
  omega

theorem bmapCost_le (d : Disk) (dn : Dinode) (bn : Nat) (rest : List Nat) :
    bmapCost d dn bn ≤ missing d dn (bn :: rest) := by
  unfold missing bmapCost
  rw [List.countP_cons]
  by_cases present : fileBlock d dn bn = 0
  · rw [if_neg (not_not.mpr present), if_pos (decide_eq_true present)]
    by_cases far : nDirect ≤ bn ∧ dn.indirect = 0
    · rw [if_pos far, if_pos ⟨far.2, bn, List.mem_cons_self, far.1⟩]
      omega
    rw [if_neg far]
    omega
  rw [if_pos present]
  exact Nat.zero_le _

theorem missing_mono {bns bns' : List Nat} (part : bns.Sublist bns') : missing d dn bns ≤ missing d dn bns' := by
  unfold missing
  have count := part.countP_le (p := fun bn => decide (fileBlock d dn bn = 0))
  have flag : (if dn.indirect = 0 ∧ ∃ bn ∈ bns, nDirect ≤ bn then 1 else 0) ≤
      if dn.indirect = 0 ∧ ∃ bn ∈ bns', nDirect ≤ bn then 1 else 0 := by
    by_cases needs : dn.indirect = 0 ∧ ∃ bn ∈ bns, nDirect ≤ bn
    · obtain ⟨absent, bn, mem, far⟩ := needs
      rw [if_pos ⟨absent, bn, mem, far⟩, if_pos ⟨absent, bn, part.subset mem, far⟩]
    rw [if_neg needs]
    exact Nat.zero_le _
  omega

theorem missing_step {bn b : Nat} (rest : List Nat) (got : HasBlock d' dn dn' bn b)
    (kept : ∀ bm, fileBlock d dn bm ≠ 0 → fileBlock d' dn' bm ≠ 0) :
    bmapCost d dn bn + missing d' dn' rest ≤ missing d dn (bn :: rest) := by
  have fewer : rest.countP (fileBlock d' dn' · = 0) ≤ rest.countP (fileBlock d dn · = 0) := by
    apply List.countP_mono_left
    intro bm _ gone
    rw [decide_eq_true_eq] at gone ⊢
    by_contra present
    exact kept bm present gone
  have holder : (if dn'.indirect = 0 ∧ ∃ bm ∈ rest, nDirect ≤ bm then 1 else 0) ≤
      (if dn.indirect = 0 ∧ ∃ bm ∈ bn :: rest, nDirect ≤ bm then 1 else 0) := by
    by_cases absent : dn'.indirect = 0 ∧ ∃ bm ∈ rest, nDirect ≤ bm
    · obtain ⟨zero, bm, mem, far⟩ := absent
      have prev : dn.indirect = 0 := by
        by_contra present
        exact got.kept present zero
      rw [if_pos ⟨zero, bm, mem, far⟩, if_pos ⟨prev, bm, List.mem_cons_of_mem _ mem, far⟩]
    rw [if_neg absent]
    exact Nat.zero_le _
  unfold missing bmapCost
  rw [List.countP_cons]
  by_cases present : fileBlock d dn bn = 0
  · rw [if_neg (not_not.mpr present), if_pos (decide_eq_true present)]
    by_cases far : nDirect ≤ bn
    · have there := got.indirect far
      rw [if_neg (fun holds : dn'.indirect = 0 ∧ _ => there holds.1)]
      by_cases absent : dn.indirect = 0
      · rw [if_pos ⟨far, absent⟩, if_pos ⟨absent, bn, List.mem_cons_self, far⟩]
        omega
      rw [if_neg (fun holds => absent holds.2)]
      omega
    rw [if_neg (fun holds => far holds.1)]
    omega
  rw [if_pos present]
  omega

end

section
variable (s : Fs) (ip : Ip) {dns : Nat → Dinode} {i : Nat} {d : Disk} {dn : Dinode}

variable {s} in
theorem written_kept {d' : Disk} {dn' : Dinode} {off k cost bn : Nat} {byte : Nat → UInt8}
    (inside : i < s.sb.ninodes) (live : dn.type ≠ 0)
    (written : Written s.sb dns i d dn d' dn' off k byte cost) (nonzero : fileBlock d dn bn ≠ 0) :
    fileBlock d' dn' bn = fileBlock d dn bn := by
  have kept := written.kept i inside
  rw [update_self, update_self] at kept
  exact kept live bn nonzero

variable {s} in
theorem written_chunk {d' : Disk} {dn' : Dinode} {off b cost : Nat} (c : Nat) (byte : Nat → UInt8)
    (inside : i < s.sb.ninodes) (live : dn.type ≠ 0) (mapped : Mapped s.sb dns i d dn d' dn' cost)
    (got : HasBlock d' dn dn' (off / bSize) b) (fits : off % bSize + c ≤ bSize) :
    Written s.sb dns i d dn (update d' b (putBytes (d' b) (off % bSize) c byte)) dn' off c byte cost ∧
    HasBlock (update d' b (putBytes (d' b) (off % bSize) c byte)) dn dn' (off / bSize) b := by
  have live' : dn'.type ≠ 0 := by
    rw [mapped.fields]
    exact live
  have present : fileBlock d' dn' (off / bSize) ≠ 0 := by
    rw [got.here]
    exact got.nonzero
  have start : Written s.sb dns i d dn d' dn' off 0 byte cost := written_of_mapped mapped
  have block := written_block byte c inside live' mapped.owned present fits
  rw [got.here] at block
  have second : Written s.sb dns i d' dn' (update d' b
      (putBytes (d' b) (off % bSize) c byte)) dn' (off + 0) c (fun t => byte (0 + t)) 0 := by
    simp only [Nat.add_zero, Nat.zero_add]
    exact block
  have whole := written_trans start second
  rw [Nat.zero_add] at whole
  refine ⟨whole, got.nonzero, ?_, got.indirect, got.kept⟩
  rw [written_kept inside live' second present, got.here]

/-- The source ends, if at all, where a block of the file begins. -/
def Aligned (src : Buffer) (tot off : Nat) : Prop :=
  ∀ l, src.limit = some l → tot ≤ l ∧ (off + (l - tot)) % bSize = 0

theorem aligned_failed {src : Buffer} {n tot off : Nat} (aligned : Aligned src tot off)
    (failed : src.copied tot (chunk n tot off) < chunk n tot off) : src.copied tot (chunk n tot off) = 0 := by
  have fits := chunk_fits n tot off
  unfold Buffer.copied at failed ⊢
  cases limit : src.limit with
  | none =>
    rw [limit] at failed
    exact absurd failed (Nat.lt_irrefl _)
  | some l =>
    rw [limit] at failed
    obtain ⟨_, starts⟩ := aligned l limit
    simp only [bSize] at *
    omega

theorem aligned_next {src : Buffer} {n tot off : Nat} (aligned : Aligned src tot off)
    (copied : src.copied tot (chunk n tot off) = chunk n tot off) :
    Aligned src (tot + chunk n tot off) (off + chunk n tot off) := by
  intro l limit
  obtain ⟨started, starts⟩ := aligned l limit
  rw [Buffer.copied, limit] at copied
  simp only at copied
  have lt : tot + chunk n tot off ≤ l := by omega
  refine ⟨lt, ?_⟩
  have same : off + chunk n tot off + (l - (tot + chunk n tot off)) = off + (l - tot) := by omega
  rw [same]
  exact starts

/-- How writei's loop ends: tot bytes are counted, and of these and the ones of a copy that
    failed k have been put in place. -/
structure LoopEnd (src : Buffer) (n tot off : Nat) (d' : Disk) (dn' : Dinode) (r : Nat × Nat)
    (k : Nat) : Prop where
  place : r.2 = off + (r.1 - tot)
  least : tot ≤ r.1
  counted : r.1 - tot ≤ k
  most : k ≤ n - tot
  whole : src.limit = none → r.1 = n
  blocks : ∀ x, off ≤ x → x < r.2 → fileBlock d' dn' (x / bSize) ≠ 0
  clean : Aligned src tot off → k = r.1 - tot

/-- What writing takes from the free blocks, it takes from what was missing. -/
def Pays (sb : Superblock) (d : Disk) (dn : Dinode) (d' : Disk) (dn' : Dinode) (used : List Nat) : Prop :=
  ∀ bns, missing d' dn' bns + (freeBlocks sb d).card ≤ missing d dn (used ++ bns) + (freeBlocks sb d').card

omit ip in
theorem pays_nothing (used : List Nat) : Pays s.sb d dn d dn used := by
  intro bns
  have more : missing d dn bns ≤ missing d dn (used ++ bns) := missing_mono (List.sublist_append_right used bns)
  omega

theorem pays_then {sb : Superblock} {d' d'' : Disk} {dn' dn'' : Dinode} {bn cost : Nat} {rest : List Nat}
    (spent : ∀ bns, cost + missing d' dn' (rest ++ bns) ≤ missing d dn (bn :: (rest ++ bns)))
    (blocks : (freeBlocks sb d').card + cost = (freeBlocks sb d).card) (later : Pays sb d' dn' d'' dn'' rest) :
    Pays sb d dn d'' dn'' (bn :: rest) := by
  intro bns
  have now := spent bns
  have rest := later bns
  rw [List.cons_append]
  omega

theorem writeiLoop_spec (src : Buffer) (n : Nat) (lt : i < s.sb.ninodes) (live : dn.type ≠ 0)
    (fuel tot off : Nat) (enough : n ≤ tot + fuel) (sofar : tot ≤ n)
    (range : off + (n - tot) ≤ maxFile * bSize) (owned : Owned s.sb (update dns i dn) d) :
    Ends (writeiLoop ip src n fuel tot off) (s.put ip d dn)
      (fun r t => ∃ d' dn' k cost, t = s.put ip d' dn' ∧ LoopEnd src n tot off d' dn' r k ∧
        Written s.sb dns i d dn d' dn' off k (fun t => src.byte (tot + t)) cost ∧
        Pays s.sb d dn d' dn' (touched off (n - tot))) (fun msg => msg = "balloc: out of blocks" ∧
        (freeBlocks s.sb d).card < missing d dn (touched off (n - tot))) := by
  induction fuel generalizing tot off d dn with
  | zero =>
    refine ends_pure ⟨d, dn, 0, 0, rfl, ?_, written_of_mapped (mapped_refl owned), pays_nothing s _⟩
    exact ⟨by simp, le_refl _, by simp, by omega, fun _ => by omega, fun x _ _ => by omega, fun _ => by simp⟩
  | succ fuel ih =>
    unfold writeiLoop
    apply ends_ite
    · intro more
      have pos : 0 < chunk n tot off := chunk_pos more
      have bound := chunk_le n tot off
      have fits := chunk_fits n tot off
      have index : off / bSize < maxFile := by
        simp only [bSize] at *
        omega
      rw [touched_chunk more]
      apply ends_step (bmap_spec s ip lt live owned index) _
      · rintro b t ⟨d', dn', rfl, mapped, got⟩
        have live' : dn'.type ≠ 0 := by
          rw [mapped.fields]
          exact live
        have few := copied_le src tot (chunk n tot off)
        obtain ⟨part, present⟩ := written_chunk (src.copied tot (chunk n tot off))
          (fun t => src.byte (tot + t)) lt live mapped got (by omega)
        have blocks := part.blocks
        have step := fun bns => missing_step (touched (off + chunk n tot off) (n - (tot + chunk n tot off)) ++ bns)
          present fun bm nonzero => by rwa [written_kept lt live part nonzero]
        apply bread_then
        apply known_then (logWrite_put s ip d' dn' b _)
        apply ends_ite
        · intro failed
          refine ends_pure ⟨_, dn', src.copied tot (chunk n tot off), _, rfl, ?_, part, pays_then step blocks (pays_nothing s _)⟩
          refine ⟨by simp, le_refl _, by simp, by omega, ?_, fun x _ _ => by omega, ?_⟩
          · intro whole
            rw [copied_all whole] at failed
            omega
          intro aligned
          rw [aligned_failed aligned failed, Nat.sub_self]
        intro copied
        have all : src.copied tot (chunk n tot off) = chunk n tot off := by omega
        simp only [all] at part present blocks step ⊢
        apply ends_mono (ih live' (tot + chunk n tot off) (off + chunk n tot off) (by omega)
          (by omega) (by omega) part.owned)
        · rintro r t ⟨d'', dn'', k, cost, rfl, ended, rest, pays⟩
          have shift : (fun t => src.byte (tot + chunk n tot off + t)) =
              fun t => src.byte (tot + (chunk n tot off + t)) := by
            funext t
            rw [Nat.add_assoc]
          rw [shift] at rest
          have place := ended.place
          have least := ended.least
          have counted := ended.counted
          have most := ended.most
          refine ⟨d'', dn'', chunk n tot off + k, _, rfl, ?_, written_trans part rest, pays_then step blocks pays⟩
          refine ⟨by omega, by omega, by omega, by omega, ended.whole, ?_, ?_⟩
          · intro x lower upper
            by_cases first : x < off + chunk n tot off
            · have same : x / bSize = off / bSize := by
                simp only [bSize] at *
                omega
              rw [same, written_kept lt live' rest]
              · rw [present.here]
                exact present.nonzero
              rw [present.here]
              exact present.nonzero
            · exact ended.blocks x (by omega) upper
          intro aligned
          have later := ended.clean (aligned_next aligned all)
          omega
        rintro msg ⟨same, short⟩
        have cost := step []
        rw [List.append_nil] at cost
        exact ⟨same, by omega⟩
      rintro msg ⟨same, short⟩
      refine ⟨same, Nat.lt_of_lt_of_le short ?_⟩
      exact bmapCost_le _ _ _ _
    intro stop
    refine ends_pure ⟨d, dn, 0, 0, rfl, ?_, written_of_mapped (mapped_refl owned), pays_nothing s _⟩
    exact ⟨by simp, le_refl _, by simp, by omega, fun _ => by omega, fun x _ _ => by omega, fun _ => by simp⟩

def writeiRefused (dn : Dinode) (off n : Nat) : Prop :=
  off > dn.size.toNat ∨ addU32 off n < off ∨ addU32 off n > maxFile * bSize

instance (dn : Dinode) (off n : Nat) : Decidable (writeiRefused dn off n) :=
  inferInstanceAs (Decidable (_ ∨ _ ∨ _))

def writeiNeed (d : Disk) (dn : Dinode) (off n : Nat) : Nat :=
  if writeiRefused dn off n then 0 else missing d dn (touched off n)

theorem writei_spec (src : Buffer) (off n : Nat) (num : (s.itable ip).inum = i) (lt : i < s.sb.ninodes)
    (live : dn.type ≠ 0) (small : n < 0x100000000) (owned : Owned s.sb (update dns i dn) d) :
    Ends (writei ip src off n) (s.put ip d dn) (fun r t => (writeiRefused dn off n ∧ r = -1 ∧ t = s.put ip d dn) ∨
        (¬ writeiRefused dn off n ∧ ∃ d' dn' e k cost, t = s.put ip (putDinode s.sb d' i dn') dn' ∧
          LoopEnd src n 0 off d' e (r.toNat, off + r.toNat) k ∧ 0 ≤ r ∧
          Written s.sb dns i d dn d' e off k src.byte cost ∧
          dn' = e.setSize (UInt32.ofNat (max dn.size.toNat (off + r.toNat))) ∧
          Pays s.sb d dn d' e (touched off n))) (fun msg => msg = "balloc: out of blocks" ∧
        (freeBlocks s.sb d).card < writeiNeed d dn off n) := by
  have bound := dn.size.toNat_lt
  apply get_then
  rw [put_dn]
  apply ends_ite
  · intro refused
    exact ends_pure (.inl ⟨refused.imp id .inl, rfl, rfl⟩)
  intro first
  apply ends_ite
  · intro refused
    exact ends_pure (.inl ⟨.inr (.inr refused), rfl, rfl⟩)
  intro snd
  have accepted : ¬ writeiRefused dn off n := by
    unfold writeiRefused
    tauto
  have sum : addU32 off n = off + n := by
    rw [not_or] at first
    unfold addU32 at first ⊢
    omega
  rw [sum] at snd
  have range : off + (n - 0) ≤ maxFile * bSize := by omega
  have loop := writeiLoop_spec s ip src n lt live n 0 off (by omega) (by omega) range owned
  rw [Nat.sub_zero] at loop
  rw [writeiNeed, if_neg accepted]
  apply ends_bind loop
  rintro ⟨tot, stop⟩ t ⟨d', e, k, cost, rfl, ended, written, pays⟩
  have place : stop = off + tot := by simpa using ended.place
  subst stop
  have size : e.size = dn.size := by rw [written.fields]
  have same : (fun t => src.byte (0 + t)) = src.byte := by
    funext t
    rw [Nat.zero_add]
  rw [same] at written
  apply get_then
  rw [put_dn, size]
  apply ends_ite
  · intro grows
    apply known_then (updDn_put s ip d' e _)
    apply known_then (iupdate_put s ip d' _)
    refine ends_pure (.inr ⟨accepted, d', _, e, k, cost, by rw [num], ended, Int.natCast_nonneg tot, written, ?_, pays⟩)
    rw [Int.toNat_natCast, Nat.max_eq_right (by omega)]
  intro stays
  apply known_then (iupdate_put s ip d' _)
  refine ends_pure (.inr ⟨accepted, d', e, e, k, cost, by rw [num], ended, Int.natCast_nonneg tot, written, ?_, pays⟩)
  rw [Int.toNat_natCast, Nat.max_eq_left (by omega), UInt32.ofNat_toNat, ← size]
  rfl

end

end Xv6Fs
