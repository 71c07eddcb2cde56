import Xv6.Owners

/- The bytes of a file: a missing block reads as zeros, so that bmap changes no contents. -/
namespace Xv6Fs
open Xv6 Bytes Ownership Function

def fileSlot (bn : Nat) : Option Slot :=
  if small : bn < nDirect then some (.addr ⟨bn, Nat.lt_succ_of_lt small⟩)
  else if large : bn - nDirect < nIndirect then some (.word ⟨bn - nDirect, large⟩)
  else none

theorem fileBlock_eq (d : Disk) (dn : Dinode) (bn : Nat) : fileBlock d dn bn = (fileSlot bn).elim 0 (slotOf d dn) := by
  unfold fileBlock fileSlot
  split
  · rfl
  split
  · rfl
  · rfl

theorem fileSlot_injective {bn bn' : Nat} {slot : Slot} (first : fileSlot bn = some slot)
    (snd : fileSlot bn' = some slot) : bn = bn' := by
  unfold fileSlot at first snd
  split at first
  · cases first
    split at snd
    · cases snd
      rfl
    split at snd
    · cases snd
    · cases snd
  split at first
  · cases first
    split at snd
    · cases snd
    split at snd
    · have same := congrArg Fin.val (Slot.word.inj (Option.some.inj snd))
      simp only at same
      omega
    · cases snd
  · cases first

theorem fileSlot_not_indirect {bn : Nat} : fileSlot bn ≠ some (.addr (Fin.last nDirect)) := by
  unfold fileSlot
  split
  · rename_i small
    intro same
    have value := congrArg Fin.val (Slot.addr.inj (Option.some.inj same))
    simp only [Fin.val_last] at value
    omega
  split
  · simp
  · simp

theorem fileBlock_addrs {d : Disk} {dn dn' : Dinode} (addrs : dn'.addrs = dn.addrs) (bn : Nat) :
    fileBlock d dn' bn = fileBlock d dn bn := by
  unfold fileBlock slotOf Dinode.indirect
  rw [addrs]

theorem fileBlock_slot {d : Disk} {dn : Dinode} {bn : Nat} (nz : fileBlock d dn bn ≠ 0) :
    ∃ slot, fileSlot bn = some slot ∧ slotOf d dn slot = fileBlock d dn bn := by
  rw [fileBlock_eq] at nz ⊢
  cases here : fileSlot bn with
  | none =>
    rw [here] at nz
    exact absurd rfl nz
  | some slot => exact ⟨slot, rfl, rfl⟩

def byteAt (d : Disk) (dn : Dinode) (off : Nat) : UInt8 :=
  if fileBlock d dn (off / bSize) = 0 then 0
  else d (fileBlock d dn (off / bSize)) (off % bSize)

structure Grown (sb : Superblock) (dns : Nat → Dinode) (d : Disk) (dns' : Nat → Dinode)
    (d' : Disk) : Prop where
  bytes : ∀ j < sb.ninodes, (dns j).type ≠ 0 → ∀ off, byteAt d' (dns' j) off = byteAt d (dns j) off
  blocks : ∀ j < sb.ninodes, (dns j).type ≠ 0 → ∀ bn, fileBlock d (dns j) bn ≠ 0 →
    fileBlock d' (dns' j) bn = fileBlock d (dns j) bn
  types : ∀ j, (dns' j).type = (dns j).type

section
variable {sb : Superblock} {dns : Nat → Dinode} {d : Disk}

theorem grown_refl : Grown sb dns d dns d := ⟨fun _ _ _ _ => rfl, fun _ _ _ _ _ => rfl, fun _ => rfl⟩

theorem grown_trans {dns' dns'' : Nat → Dinode} {d' d'' : Disk} (first : Grown sb dns d dns' d')
    (snd : Grown sb dns' d' dns'' d'') : Grown sb dns d dns'' d'' where
  bytes := by
    intro j inside live off
    have live' : (dns' j).type ≠ 0 := by rwa [first.types j]
    rw [snd.bytes j inside live' off, first.bytes j inside live off]
  blocks := by
    intro j inside live bn nz
    have live' : (dns' j).type ≠ 0 := by rwa [first.types j]
    have middle := first.blocks j inside live bn nz
    rw [snd.blocks j inside live' bn (by rwa [middle]), middle]
  types := by
    intro j
    rw [snd.types j, first.types j]

theorem grown_attach {dns' : Nat → Dinode} {d' : Disk} {l : Nat × Slot} {b : Nat}
    (empty : slotOf d (dns l.1) l.2 = 0) (zeroed : d' b = fun _ => 0) (types : ∀ j, (dns' j).type = (dns j).type)
    (slots : ∀ j < sb.ninodes, (dns j).type ≠ 0 → ∀ slot,
      slotOf d' (dns' j) slot = if (j, slot) = l then b else slotOf d (dns j) slot)
    (kept : ∀ j < sb.ninodes, (dns j).type ≠ 0 → ∀ slot, slot ≠ .addr (Fin.last nDirect) →
      slotOf d (dns j) slot ≠ 0 → d' (slotOf d (dns j) slot) = d (slotOf d (dns j) slot)) : Grown sb dns d dns' d' := by
  have blocks : ∀ j < sb.ninodes, (dns j).type ≠ 0 → ∀ bn, fileBlock d (dns j) bn ≠ 0 →
      fileBlock d' (dns' j) bn = fileBlock d (dns j) bn := by
    intro j inside live bn nz
    obtain ⟨slot, place, same⟩ := fileBlock_slot nz
    rw [fileBlock_eq, place, ← same]
    have other : (j, slot) ≠ l := by
      rintro rfl
      rw [← same, empty] at nz
      exact nz rfl
    exact (slots j inside live slot).trans (if_neg other)
  refine ⟨?_, blocks, types⟩
  intro j inside live off
  unfold byteAt
  by_cases missing : fileBlock d (dns j) (off / bSize) = 0
  · rw [if_pos missing]
    by_cases still : fileBlock d' (dns' j) (off / bSize) = 0
    · rw [if_pos still]
    -- the block that came is the zeroed one
    obtain ⟨slot, place, same⟩ := fileBlock_slot still
    have here := slots j inside live slot
    rw [same] at here
    rw [if_neg still, here]
    split at here
    · rw [if_pos ‹_›, zeroed]
    rw [fileBlock_eq, place] at missing
    rw [here] at still
    exact absurd missing still
  obtain ⟨slot, place, same⟩ := fileBlock_slot missing
  have direct : slot ≠ .addr (Fin.last nDirect) := by
    rintro rfl
    exact fileSlot_not_indirect place
  have contents := kept j inside live slot direct (by rwa [same])
  rw [same] at contents
  rw [blocks j inside live _ missing, if_neg missing, if_neg missing, contents]

theorem grown_setAddr (owned : Owned sb dns d) {i b : Nat} {k : Fin (nDirect + 1)}
    (empty : ((dns i).addrs k).toNat = 0) (small : b < sb.size) (free : bit sb d b = false) :
    Grown sb dns d (update dns i ((dns i).setAddr k (UInt32.ofNat b))) (takeBlock sb d b) := by
  have pos : b ≠ 0 := Nat.ne_of_gt (sb.data_pos (free_data owned small free))
  apply grown_attach (l := (i, .addr k)) empty (take_zero b)
  · intro j
    by_cases here : j = i
    · subst j
      rw [update_self]
      rfl
    · rw [update_of_ne here]
  · intro j inside live slot
    exact slots_setAddr owned empty small free inside live slot
  intro j inside live slot _ nz
  exact take_other (owned_free owned inside live free pos)
    (data_not_bblock (owned_slot owned inside live nz) small)

theorem grown_setWord (owned : Owned sb dns d) {i b : Nat} {w : Fin nIndirect}
    (lt : i < sb.ninodes) (live : (dns i).type ≠ 0) (nz : (dns i).indirect ≠ 0)
    (empty : word (d (dns i).indirect) w = 0) (small : b < sb.size) (free : bit sb d b = false) :
    Grown sb dns d dns (setWord (takeBlock sb d b) (dns i).indirect w b) := by
  have pos : b ≠ 0 := Nat.ne_of_gt (sb.data_pos (free_data owned small free))
  have slot : slotOf d (dns i) (.word w) = 0 := by rw [slotOf, if_neg nz, empty]
  have holder : slotOf d (dns i) (.addr (Fin.last nDirect)) ≠ 0 := nz
  have apart : (dns i).indirect ≠ b := by
    have other : slotOf d (dns i) (.addr (Fin.last nDirect)) ≠ b := owned_free owned lt live free pos
    exact other
  apply grown_attach (l := (i, .word w)) (b := b) slot
  · rw [setWord, update_of_ne (Ne.symm apart), take_zero]
  · intro j
    rfl
  · intro j bounded used slot
    exact slots_setWord (w := w) owned lt live nz small free bounded used slot
  intro j bounded used slot direct held
  have other : slotOf d (dns j) slot ≠ (dns i).indirect := by
    intro same
    have eq := owned_unique owned lt live bounded used holder same
    exact direct eq.2.symm
  rw [setWord, update_of_ne other]
  exact take_other (owned_free owned bounded used free pos)
    (data_not_bblock (owned_slot owned bounded used held) small)

theorem fileBlock_write (owned : Owned sb dns d) {i bn : Nat} (lt : i < sb.ninodes)
    (live : (dns i).type ≠ 0) (nz : fileBlock d (dns i) bn ≠ 0) (data : Block) :
    (∀ j < sb.ninodes, (dns j).type ≠ 0 → (dns j).indirect ≠ fileBlock d (dns i) bn) ∧
    (∀ j < sb.ninodes, (dns j).type ≠ 0 → ∀ bm,
      fileBlock (update d (fileBlock d (dns i) bn) data) (dns j) bm = fileBlock d (dns j) bm) ∧
    (∀ j < sb.ninodes, (dns j).type ≠ 0 → ∀ off, byteAt (update d (fileBlock d (dns i) bn) data) (dns j) off =
        if j = i ∧ off / bSize = bn then data (off % bSize) else byteAt d (dns j) off) := by
  obtain ⟨slot, place, same⟩ := fileBlock_slot nz
  have plain : ∀ j < sb.ninodes, (dns j).type ≠ 0 → (dns j).indirect ≠ fileBlock d (dns i) bn := by
    intro j bounded used eq
    have slots := owned_unique owned lt live bounded used (by rwa [same])
      (show slotOf d (dns j) (.addr (Fin.last nDirect)) = slotOf d (dns i) slot by
        rw [same]
        exact eq)
    rw [slots.2] at place
    exact fileSlot_not_indirect place
  have blocks : ∀ j < sb.ninodes, (dns j).type ≠ 0 → ∀ bm,
      fileBlock (update d (fileBlock d (dns i) bn) data) (dns j) bm = fileBlock d (dns j) bm := by
    intro j bounded used bm
    rw [fileBlock_eq _ _ bm, fileBlock_eq _ _ bm]
    cases fileSlot bm with
    | none => rfl
    | some slot =>
      cases slot with
      | addr k => rfl
      | word w =>
        simp only [Option.elim_some, slotOf]
        rw [update_of_ne (plain j bounded used)]
  refine ⟨plain, blocks, ?_⟩
  intro j bounded used off
  rw [byteAt, byteAt, blocks j bounded used]
  by_cases missing : fileBlock d (dns j) (off / bSize) = 0
  · rw [if_pos missing, if_pos missing, if_neg]
    rintro ⟨rfl, rfl⟩
    exact nz missing
  rw [if_neg missing, if_neg missing]
  by_cases target : fileBlock d (dns j) (off / bSize) = fileBlock d (dns i) bn
  · -- one place has the block, so this is the file and the index
    obtain ⟨slot', place', same'⟩ := fileBlock_slot missing
    have eq := owned_unique owned lt live bounded used (by rwa [same])
      (show slotOf d (dns j) slot' = slotOf d (dns i) slot by rw [same, same', target])
    rw [← eq.2] at place'
    have index : off / bSize = bn := fileSlot_injective place' place
    rw [target, update_self, if_pos ⟨eq.1.symm, index⟩]
  rw [update_of_ne target, if_neg]
  rintro ⟨rfl, rfl⟩
  exact target rfl

end

end Xv6Fs
