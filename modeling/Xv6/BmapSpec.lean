import Xv6.BlockSpec
import Xv6.Contents

/- What bmap and itrunc do to the inode in a table entry. The other inodes are given as dns;
   i is the inode's number. -/
namespace Xv6Fs
open Xv6 Bytes Outcome Ownership Function

/-- The state with disk d and with dn as the copy in entry ip. -/
def Fs.put (s : Fs) (ip : Ip) (d : Disk) (dn : Dinode) : Fs := (s.setDisk d).setDn ip dn

section
variable (s : Fs) (ip : Ip)

@[simp] theorem put_disk (d : Disk) (dn : Dinode) : (s.put ip d dn).disk = d := rfl

@[simp] theorem put_entry (d : Disk) (dn : Dinode) :
    (s.put ip d dn).itable ip = (s.itable ip).setDn dn := update_self _ _ _

theorem put_dn (d : Disk) (dn : Dinode) : ((s.put ip d dn).itable ip).dn = dn := by
  rw [put_entry]
  rfl

theorem put_other (d : Disk) (dn : Dinode) {jp : Ip} (other : jp ≠ ip) :
    (s.put ip d dn).itable jp = s.itable jp := update_of_ne other _ _

@[simp] theorem put_setDisk (d d' : Disk) (dn : Dinode) : (s.put ip d dn).setDisk d' = s.put ip d' dn := rfl

@[simp] theorem put_setDn (d : Disk) (dn dn' : Dinode) : (s.put ip d dn).setDn ip dn' = s.put ip d dn' := by
  unfold Fs.put Fs.setDn Fs.setIp Fs.setDisk
  simp only [update_self, update_idem]
  rfl

theorem updDn_put (d : Disk) (dn : Dinode) (f : Dinode → Dinode) :
    updDn ip f (s.put ip d dn) = .ok ((), s.put ip d (f dn)) := by
  change Except.ok ((), (s.put ip d dn).setDn ip (f ((s.put ip d dn).itable ip).dn)) = _
  rw [put_setDn, put_dn]

theorem logWrite_put (d : Disk) (dn : Dinode) (b : Nat) (data : Block) :
    logWrite b data (s.put ip d dn) = .ok ((), s.put ip (update d b data) dn) := rfl

theorem iupdate_put (d : Disk) (dn : Dinode) : iupdate ip (s.put ip d dn) =
      .ok ((), s.put ip (putDinode s.sb d (s.itable ip).inum dn) dn) := by
  change Except.ok ((), (s.put ip d dn).setDisk (putDinode s.sb d ((s.put ip d dn).itable ip).inum
    ((s.put ip d dn).itable ip).dn)) = _
  rw [put_dn, put_entry, put_setDisk]
  rfl

theorem put_self : s.put ip s.disk (s.itable ip).dn = s := by
  unfold Fs.put Fs.setDn Fs.setIp Fs.setDisk
  have same : (s.itable ip).setDn (s.itable ip).dn = s.itable ip := rfl
  simp only [same, update_eq_self]

end

structure Mapped (sb : Superblock) (dns : Nat → Dinode) (i : Nat) (d : Disk) (dn : Dinode)
    (d' : Disk) (dn' : Dinode) (cost : Nat) : Prop where
  owned : Owned sb (Function.update dns i dn') d'
  grown : Grown sb (Function.update dns i dn) d (Function.update dns i dn') d'
  fields : dn' = { dn with addrs := dn'.addrs }
  dinodes : ∀ j < sb.ninodes, getDinode sb d' j = getDinode sb d j
  blocks : (freeBlocks sb d').card + cost = (freeBlocks sb d).card

section
variable {sb : Superblock} {dns : Nat → Dinode} {i : Nat} {d d' d'' : Disk} {dn dn' dn'' : Dinode}
variable {b : Nat}

theorem grown_kept {bn : Nat} (lt : i < sb.ninodes) (live : dn.type ≠ 0)
    (grown : Grown sb (update dns i dn) d (update dns i dn') d')
    (nz : fileBlock d dn bn ≠ 0) : fileBlock d' dn' bn = fileBlock d dn bn := by
  have kept := grown.blocks i lt
  rw [update_self, update_self] at kept
  exact kept live bn nz

theorem mapped_refl (owned : Owned sb (update dns i dn) d) : Mapped sb dns i d dn d dn 0 :=
  ⟨owned, grown_refl, rfl, fun _ _ => rfl, rfl⟩

theorem mapped_trans {c c' : Nat} (first : Mapped sb dns i d dn d' dn' c)
    (snd : Mapped sb dns i d' dn' d'' dn'' c') : Mapped sb dns i d dn d'' dn'' (c + c') where
  owned := snd.owned
  grown := grown_trans first.grown snd.grown
  fields := by
    rw [snd.fields, first.fields]
  dinodes := by
    intro j inside
    rw [snd.dinodes j inside, first.dinodes j inside]
  blocks := by
    have := first.blocks
    have := snd.blocks
    omega

theorem take_dinode (data : sb.Data b) {j : Nat} (lt : j < sb.ninodes) :
    getDinode sb (takeBlock sb d b) j = getDinode sb d j := by
  have low := sb.iblock_lt lt
  have map := sb.bblock_le b
  have above := data.1
  have below := sb.bmapstart_lt
  rw [takeBlock, getDinode_update sb (by omega), setUsed, getDinode_update sb (by omega)]

theorem freeBlocks_take (data : sb.Data b) (free : bit sb d b = false) :
    (freeBlocks sb (takeBlock sb d b)).card + 1 = (freeBlocks sb d).card := by
  have mem : b ∈ freeBlocks sb d := by
    simp only [freeBlocks, Finset.mem_filter, Finset.mem_range]
    exact ⟨data.2, free⟩
  have rest : freeBlocks sb (takeBlock sb d b) = (freeBlocks sb d).erase b := by
    ext c
    simp only [freeBlocks, Finset.mem_filter, Finset.mem_range, Finset.mem_erase]
    constructor
    · rintro ⟨small, clear⟩
      rw [bit_take data small] at clear
      by_cases same : c = b
      · subst c
        rw [update_self] at clear
        cases clear
      rw [update_of_ne same] at clear
      exact ⟨same, small, clear⟩
    rintro ⟨other, small, clear⟩
    rw [bit_take data small, update_of_ne other]
    exact ⟨small, clear⟩
  rw [rest, Finset.card_erase_add_one mem]

theorem freeBlocks_write (data : sb.Data b) {contents : Block} :
    freeBlocks sb (update d b contents) = freeBlocks sb d := by
  apply Finset.filter_congr
  intro c small
  rw [bit_update sb (Ne.symm (data_not_bblock data (Finset.mem_range.mp small)))]

theorem mapped_setAddr {k : Fin (nDirect + 1)} (lt : i < sb.ninodes)
    (live : dn.type ≠ 0) (owned : Owned sb (update dns i dn) d)
    (empty : (dn.addrs k).toNat = 0) (small : b < sb.size) (free : bit sb d b = false) :
    Mapped sb dns i d dn (takeBlock sb d b) (dn.setAddr k (UInt32.ofNat b)) 1 := by
  have data := free_data owned small free
  have empty' : ((update dns i dn i).addrs k).toNat = 0 := by
    rwa [update_self]
  have live' : (update dns i dn i).type ≠ 0 := by rwa [update_self]
  have owned' := owned_setAddr owned lt live' empty' small free
  have grown := grown_setAddr owned empty' small free
  rw [update_self, update_idem] at owned' grown
  exact ⟨owned', grown, rfl, fun _ => take_dinode data, freeBlocks_take data free⟩

theorem mapped_setWord {w : Fin nIndirect} (lt : i < sb.ninodes) (live : dn.type ≠ 0)
    (owned : Owned sb (update dns i dn) d) (nz : dn.indirect ≠ 0) (empty : word (d dn.indirect) w = 0)
    (small : b < sb.size) (free : bit sb d b = false) :
    Mapped sb dns i d dn (setWord (takeBlock sb d b) dn.indirect w b) dn 1 := by
  have data := free_data owned small free
  have here : update dns i dn i = dn := update_self _ _ _
  have live' : (update dns i dn i).type ≠ 0 := by rwa [here]
  have nonzero' : (update dns i dn i).indirect ≠ 0 := by rwa [here]
  have empty' : word (d (update dns i dn i).indirect) w = 0 := by rwa [here]
  have owned' := owned_setWord owned lt live' nonzero' empty' small free
  have grown := grown_setWord owned lt live' nonzero' empty' small free
  have holder := indirect_data owned lt live' nonzero'
  rw [here] at owned' grown holder
  refine ⟨owned', grown, rfl, ?_, ?_⟩
  · intro j bounded
    have low := sb.iblock_lt bounded
    have above := holder.1
    have below := sb.bmapstart_lt
    rw [setWord, getDinode_update sb (by omega), take_dinode data bounded]
  · rw [setWord, freeBlocks_write holder, freeBlocks_take data free]

end

section
variable {s : Fs} {ip : Ip} {dns : Nat → Dinode} {i : Nat} {d : Disk} {dn : Dinode}
variable {bn : Nat} {k : Fin (nDirect + 1)}

variable (s ip) in
theorem bmapAddr_spec (inside : i < s.sb.ninodes) (live : dn.type ≠ 0)
    (owned : Owned s.sb (update dns i dn) d) (empty : (dn.addrs k).toNat = 0) :
    Ends (bmapAddr ip k) (s.put ip d dn) (fun b t => ∃ d', t = s.put ip d' (dn.setAddr k (UInt32.ofNat b)) ∧
        Mapped s.sb dns i d dn d' (dn.setAddr k (UInt32.ofNat b)) 1 ∧ b ≠ 0 ∧ b < s.sb.size ∧
        d' b = fun _ => 0) (fun msg => msg = "balloc: out of blocks" ∧ freeBlocks s.sb d = ∅) := by
  apply get_then
  apply ends_ite
  · intro _
    apply ends_bind (balloc_spec _)
    rintro b t ⟨small, free, rfl⟩
    rw [put_setDisk]
    apply known_then (updDn_put s ip _ dn _)
    refine ends_pure ⟨takeBlock s.sb d b, rfl, mapped_setAddr inside live owned empty small free,
      ?_, small, take_zero b⟩
    exact Nat.ne_of_gt (s.sb.data_pos (free_data owned small free))
  intro nonzero
  rw [put_dn] at nonzero
  exact absurd empty nonzero

variable (s ip) in
theorem bmapIndirect_spec {w : Fin nIndirect} (inside : i < s.sb.ninodes) (live : dn.type ≠ 0)
    (owned : Owned s.sb (update dns i dn) d) (nonzero : dn.indirect ≠ 0)
    (empty : word (d dn.indirect) w = 0) : Ends (bmapIndirect dn.indirect w) (s.put ip d dn)
      (fun b t => ∃ d', t = s.put ip d' dn ∧ Mapped s.sb dns i d dn d' dn 1 ∧ b ≠ 0 ∧
        word (d' dn.indirect) w = b) (fun msg => msg = "balloc: out of blocks" ∧ freeBlocks s.sb d = ∅) := by
  apply bread_then
  apply ends_ite
  · intro _
    apply ends_bind (balloc_spec _)
    rintro b t ⟨small, free, rfl⟩
    rw [put_setDisk]
    apply bread_then
    apply known_then (logWrite_put s ip _ dn _ _)
    refine ends_pure ⟨setWord (takeBlock s.sb d b) dn.indirect w b, rfl,
      mapped_setWord inside live owned nonzero empty small free, ?_, ?_⟩
    · exact Nat.ne_of_gt (s.sb.data_pos (free_data owned small free))
    have bound := s.sb.small
    have large : b < 0x100000000 := by
      change b < s.sb.size at small
      omega
    rw [word_setWord _ _ _ _ large, if_pos rfl]
  intro full
  exact absurd empty full

theorem bmapAddr_ok (present : ((s.itable ip).dn.addrs k).toNat ≠ 0) :
    bmapAddr ip k s = .ok (((s.itable ip).dn.addrs k).toNat, s) := by
  change (if ((s.itable ip).dn.addrs k).toNat = 0 then _ else
    pure ((s.itable ip).dn.addrs k).toNat : M Nat) s = _
  rw [if_neg present]
  rfl

theorem bmap_ok (nz : fileBlock s.disk (s.itable ip).dn bn ≠ 0) :
    bmap ip bn s = .ok (fileBlock s.disk (s.itable ip).dn bn, s) := by
  unfold fileBlock at nz ⊢
  unfold bmap
  split
  · rename_i small
    rw [dif_pos small] at nz
    exact bmapAddr_ok nz
  rename_i small
  rw [dif_neg small] at nz
  split
  · rename_i large
    rw [dif_pos large] at nz
    rw [slotOf] at nz ⊢
    have holder : (s.itable ip).dn.indirect ≠ 0 := by
      intro absent
      rw [if_pos absent] at nz
      exact nz rfl
    rw [if_neg holder] at nz ⊢
    change (bmapAddr ip (Fin.last nDirect) s >>= fun r => bmapIndirect r.1 (bn - nDirect) r.2) = _
    rw [bmapAddr_ok holder]
    change (if word (s.disk (s.itable ip).dn.indirect) (bn - nDirect) = 0 then _ else
      pure (word (s.disk (s.itable ip).dn.indirect) (bn - nDirect)) : M Nat) s = _
    rw [if_neg nz]
    rfl
  rename_i large
  rw [dif_neg large] at nz
  exact absurd rfl nz

def bmapCost (d : Disk) (dn : Dinode) (bn : Nat) : Nat :=
  if fileBlock d dn bn ≠ 0 then 0 else if nDirect ≤ bn ∧ dn.indirect = 0 then 2 else 1

theorem fileBlock_small (small : bn < nDirect) :
    fileBlock d dn bn = (dn.addrs ⟨bn, Nat.lt_succ_of_lt small⟩).toNat := dif_pos small

theorem fileBlock_large (small : ¬ bn < nDirect) (large : bn - nDirect < nIndirect)
    (nz : dn.indirect ≠ 0) : fileBlock d dn bn = word (d dn.indirect) (bn - nDirect) := by
  rw [fileBlock, dif_neg small, dif_pos large, slotOf, if_neg nz]

theorem fileBlock_no_indirect (small : ¬ bn < nDirect) (absent : dn.indirect = 0) : fileBlock d dn bn = 0 := by
  rw [fileBlock, dif_neg small]
  split
  · rw [slotOf, if_pos absent]
  · rfl

theorem word_zero (w : Nat) : word (fun _ => 0) w = 0 := by
  simp [word, getLE]

theorem addrs_setAddr (dn : Dinode) (k l : Fin (nDirect + 1)) (b : UInt32) :
    (dn.setAddr k b).addrs l = if l = k then b else dn.addrs l := update_apply _ _ _ _

theorem indirect_setAddr (direct : k ≠ Fin.last nDirect) (b : UInt32) : (dn.setAddr k b).indirect = dn.indirect := by
  rw [Dinode.indirect, addrs_setAddr, if_neg (Ne.symm direct), Dinode.indirect]

theorem toNat_setAddr {sb : Superblock} {b : Nat} (small : b < sb.size) :
    ((dn.setAddr k (UInt32.ofNat b)).addrs k).toNat = b := by
  rw [addrs_setAddr, if_pos rfl, toNat_ofNat_block small]

structure HasBlock (d : Disk) (dn dn' : Dinode) (bn b : Nat) : Prop where
  nonzero : b ≠ 0
  here : fileBlock d dn' bn = b
  indirect : nDirect ≤ bn → dn'.indirect ≠ 0
  kept : dn.indirect ≠ 0 → dn'.indirect ≠ 0

variable (s ip) in
theorem bmap_spec (inside : i < s.sb.ninodes) (live : dn.type ≠ 0) (owned : Owned s.sb (update dns i dn) d)
    (range : bn < maxFile) : Ends (bmap ip bn) (s.put ip d dn) (fun b t => ∃ d' dn', t = s.put ip d' dn' ∧
        Mapped s.sb dns i d dn d' dn' (bmapCost d dn bn) ∧ HasBlock d' dn dn' bn b)
      (fun msg => msg = "balloc: out of blocks" ∧ (freeBlocks s.sb d).card < bmapCost d dn bn) := by
  by_cases missing : fileBlock d dn bn = 0
  · unfold bmap
    split
    · rename_i small
      have cost : bmapCost d dn bn = 1 := by
        rw [bmapCost, if_neg (not_not.mpr missing), if_neg (by omega)]
      have direct : (⟨bn, Nat.lt_succ_of_lt small⟩ : Fin (nDirect + 1)) ≠ Fin.last nDirect := by
        intro same
        have value := congrArg Fin.val same
        simp only [Fin.val_last] at value
        omega
      rw [cost]
      rw [fileBlock_small small] at missing
      apply ends_mono (bmapAddr_spec s ip inside live owned missing)
      · rintro b t ⟨d', rfl, mapped, nonzero, bounded, _⟩
        refine ⟨d', _, rfl, mapped, nonzero, ?_, by omega, ?_⟩
        · rw [fileBlock_small small, toNat_setAddr bounded]
        rw [indirect_setAddr direct]
        exact id
      rintro msg ⟨same, empty⟩
      exact ⟨same, by rw [empty]; decide⟩
    rename_i small
    have large : bn - nDirect < nIndirect := by
      simp only [maxFile] at range
      omega
    rw [if_pos large]
    by_cases absent : dn.indirect = 0
    · have cost : bmapCost d dn bn = 1 + 1 := by
        rw [bmapCost, if_neg (not_not.mpr missing), if_pos ⟨by omega, absent⟩]
      rw [cost]
      apply ends_step (bmapAddr_spec s ip inside live owned absent)
        (fun msg panic => ⟨panic.1, by rw [panic.2]; decide⟩)
      rintro a t ⟨d', rfl, mapped, nonzero, bounded, zeroed⟩
      have holder : (dn.setAddr (Fin.last nDirect) (UInt32.ofNat a)).indirect = a := toNat_setAddr bounded
      have empty : word (d' (dn.setAddr (Fin.last nDirect) (UInt32.ofNat a)).indirect)
          (⟨bn - nDirect, large⟩ : Fin nIndirect) = 0 := by
        rw [holder, zeroed, word_zero]
      have live' : (dn.setAddr (Fin.last nDirect) (UInt32.ofNat a)).type ≠ 0 := live
      have second := bmapIndirect_spec s ip inside live' mapped.owned
        (by rwa [holder]) empty
      rw [holder] at second
      apply ends_mono second
      · rintro b t ⟨d'', rfl, mapped', nonzero', stored⟩
        refine ⟨d'', _, rfl, mapped_trans mapped mapped', nonzero', ?_, ?_, ?_⟩
        · rw [fileBlock_large small large (by rwa [holder]), holder]
          exact stored
        · intro _
          rwa [holder]
        intro _
        rwa [holder]
      rintro msg ⟨same, empty⟩
      refine ⟨same, ?_⟩
      have blocks := mapped.blocks
      rw [empty, Finset.card_empty] at blocks
      omega
    have cost : bmapCost d dn bn = 1 := by
      rw [bmapCost, if_neg (not_not.mpr missing), if_neg (by tauto)]
    rw [cost]
    have present : (((s.put ip d dn).itable ip).dn.addrs (Fin.last nDirect)).toNat ≠ 0 := by
      rw [put_dn]
      exact absent
    apply known_then (bmapAddr_ok present)
    rw [put_dn]
    rw [fileBlock_large small large absent] at missing
    have second := bmapIndirect_spec s ip (w := ⟨bn - nDirect, large⟩) inside live owned absent missing
    apply ends_mono second
    · rintro b t ⟨d', rfl, mapped, nonzero, stored⟩
      refine ⟨d', dn, rfl, mapped, nonzero, ?_, fun _ => absent, id⟩
      rw [fileBlock_large small large absent]
      exact stored
    rintro msg ⟨same, empty⟩
    exact ⟨same, by rw [empty]; decide⟩
  have result : bmap ip bn (s.put ip d dn) = _ := bmap_ok (by rwa [put_dn])
  rw [put_dn, put_disk] at result
  have cost : bmapCost d dn bn = 0 := by rw [bmapCost, if_pos missing]
  rw [cost]
  refine ends_known result ⟨d, dn, rfl, mapped_refl owned, missing, rfl, ?_, id⟩
  intro beyond absent
  exact missing (fileBlock_no_indirect (by omega) absent)

end

end Xv6Fs
