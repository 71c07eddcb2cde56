import Mathlib.Data.Finset.Card
import Mathlib.Data.Finset.Range
import Xv6.Inodes
import Xv6.Lib.Ownership

/- Which block belongs to which inode, for inodes `dns` and a disk, and how the changes that
   fs.c makes move blocks between inodes and the bit map. -/
namespace Xv6Fs
open Xv6 Bytes Ownership Function

def takeBlock (sb : Superblock) (d : Disk) (b : Nat) : Disk :=
  Function.update (setUsed sb d b) b (fun _ => 0)

def freeBlocks (sb : Superblock) (d : Disk) : Finset Nat :=
  (Finset.range sb.size).filter fun b => bit sb d b = false

/-- Where an inode keeps a block number: in addrs, or in its indirect block. -/
inductive Slot where
  | addr (k : Fin (nDirect + 1))
  | word (j : Fin nIndirect)
  deriving DecidableEq

def Dinode.indirect (dn : Dinode) : Nat := (dn.addrs (Fin.last nDirect)).toNat

def slotOf (d : Disk) (dn : Dinode) : Slot → Nat
  | .addr k => (dn.addrs k).toNat
  | .word j => if dn.indirect = 0 then 0 else word (d dn.indirect) j

def fileBlock (d : Disk) (dn : Dinode) (bn : Nat) : Nat :=
  if small : bn < nDirect then (dn.addrs ⟨bn, Nat.lt_succ_of_lt small⟩).toNat
  else if large : bn - nDirect < nIndirect then slotOf d dn (.word ⟨bn - nDirect, large⟩)
  else 0

def ownOf (sb : Superblock) (dns : Nat → Dinode) (d : Disk) (l : Nat × Slot) : Option Nat :=
  if l.1 < sb.ninodes ∧ (dns l.1).type ≠ 0 ∧ slotOf d (dns l.1) l.2 ≠ 0 then
    some (slotOf d (dns l.1) l.2)
  else none

/-- Block ownership: in the data area a bit is set exactly if one place has the block, and
    below the data area every bit is set. -/
structure Owned (sb : Superblock) (dns : Nat → Dinode) (d : Disk) : Prop where
  tracks : Tracks sb.Data (ownOf sb dns d) (bit sb d)
  reserved : ∀ b < sb.dataStart, bit sb d b = true

section
variable {sb : Superblock} {dns : Nat → Dinode} {d : Disk}
variable {b : Nat} {d' : Disk} {i : Nat} {l : Nat × Slot} {dns' : Nat → Dinode} {k : Fin (nDirect + 1)}
  {slot : Slot}

theorem ownOf_eq_some : ownOf sb dns d l = some b ↔
      l.1 < sb.ninodes ∧ (dns l.1).type ≠ 0 ∧ b ≠ 0 ∧ slotOf d (dns l.1) l.2 = b := by
  unfold ownOf
  constructor
  · intro some
    split at some
    · rename_i holds
      cases some
      exact ⟨holds.1, holds.2.1, holds.2.2, rfl⟩
    · cases some
  rintro ⟨inside, live, nz, rfl⟩
  rw [if_pos ⟨inside, live, nz⟩]

theorem ownOf_eq_none (lt : l.1 < sb.ninodes) (live : (dns l.1).type ≠ 0) :
    ownOf sb dns d l = none ↔ slotOf d (dns l.1) l.2 = 0 := by
  unfold ownOf
  simp [lt, live]

theorem ownOf_congr (types : ∀ i < sb.ninodes, (dns' i).type = 0 ↔ (dns i).type = 0)
    (slots : ∀ i < sb.ninodes, (dns i).type ≠ 0 → ∀ slot, slotOf d' (dns' i) slot = slotOf d (dns i) slot) :
    ownOf sb dns' d' = ownOf sb dns d := by
  funext l
  unfold ownOf
  by_cases lt : l.1 < sb.ninodes
  · by_cases live : (dns l.1).type = 0
    · rw [if_neg (fun holds => holds.2.1 ((types _ lt).mpr live)), if_neg (fun holds => holds.2.1 live)]
    have same := slots l.1 lt live l.2
    have live' : (dns' l.1).type ≠ 0 := fun zero => live ((types _ lt).mp zero)
    simp [same, lt, live, live']
  · rw [if_neg (fun holds => lt holds.1), if_neg (fun holds => lt holds.1)]

theorem ownOf_disk (spared : ∀ i < sb.ninodes, (dns i).type ≠ 0 → (dns i).indirect ≠ 0 →
      d' (dns i).indirect = d (dns i).indirect) : ownOf sb dns d' = ownOf sb dns d := by
  apply ownOf_congr (fun _ _ => Iff.rfl)
  intro i inside live slot
  cases slot with
  | addr k => rfl
  | word j =>
    simp only [slotOf]
    by_cases zero : (dns i).indirect = 0
    · rw [if_pos zero, if_pos zero]
    · rw [if_neg zero, if_neg zero, spared i inside live zero]

section
variable (owned : Owned sb dns d)
include owned

theorem owned_slot (inside : i < sb.ninodes) (live : (dns i).type ≠ 0)
    (nz : slotOf d (dns i) slot ≠ 0) : sb.Data (slotOf d (dns i) slot) :=
  owned.tracks.inside (i, slot) _ (ownOf_eq_some.mpr ⟨inside, live, nz, rfl⟩)

theorem owned_unique {i j : Nat} {slot slot' : Slot}
    (lt : i < sb.ninodes) (live : (dns i).type ≠ 0) (inside' : j < sb.ninodes)
    (live' : (dns j).type ≠ 0) (nz : slotOf d (dns i) slot ≠ 0)
    (same : slotOf d (dns j) slot' = slotOf d (dns i) slot) : i = j ∧ slot = slot' := by
  have eq := owned.tracks.unique (i, slot) (j, slot') _ (ownOf_eq_some.mpr ⟨lt, live, nz, rfl⟩)
    (ownOf_eq_some.mpr ⟨inside', live', nz, same⟩)
  cases eq
  exact ⟨rfl, rfl⟩

theorem owned_used (lt : i < sb.ninodes) (live : (dns i).type ≠ 0)
    (nz : slotOf d (dns i) slot ≠ 0) : bit sb d (slotOf d (dns i) slot) = true :=
  tracks_held owned.tracks (l := (i, slot)) (ownOf_eq_some.mpr ⟨lt, live, nz, rfl⟩)

theorem owned_free {i b : Nat} (lt : i < sb.ninodes) (live : (dns i).type ≠ 0)
    (free : bit sb d b = false) (pos : b ≠ 0) : slotOf d (dns i) slot ≠ b := by
  intro same
  exact tracks_free owned.tracks free (i, slot) (ownOf_eq_some.mpr ⟨lt, live, pos, same⟩)

theorem free_data (small : b < sb.size) (free : bit sb d b = false) : sb.Data b := by
  refine ⟨?_, small⟩
  by_contra below
  rw [owned.reserved b (by omega)] at free
  cases free

theorem indirect_data (lt : i < sb.ninodes)
    (live : (dns i).type ≠ 0) (nz : (dns i).indirect ≠ 0) : sb.Data (dns i).indirect := by
  have slot : slotOf d (dns i) (.addr (Fin.last nDirect)) ≠ 0 := nz
  exact owned_slot owned lt live slot

end

/- Taking a block. -/
theorem take_other {b c : Nat} (block : c ≠ b) (map : c ≠ sb.bblock b) : takeBlock sb d b c = d c := by
  rw [takeBlock, update_of_ne block, setUsed, update_of_ne map]

theorem take_zero (b : Nat) : takeBlock sb d b b = fun _ => 0 := update_self _ _ _

theorem bit_take {b c : Nat} (data : sb.Data b) (small : c < sb.size) :
    bit sb (takeBlock sb d b) c = update (bit sb d) b true c := by
  have := sb.bblock_lt small
  have := data.1
  rw [takeBlock, bit_update sb (by omega), bit_setUsed]

theorem data_not_bblock {b c : Nat} (data : sb.Data c) (small : b < sb.size) : c ≠ sb.bblock b := by
  have := sb.bblock_lt small
  have := data.1
  omega

theorem take_indirect (owned : Owned sb dns d) {b i : Nat} (small : b < sb.size) (free : bit sb d b = false)
    (lt : i < sb.ninodes) (live : (dns i).type ≠ 0) (nz : (dns i).indirect ≠ 0) :
    takeBlock sb d b (dns i).indirect = d (dns i).indirect := by
  have data := indirect_data owned lt live nz
  have pos : b ≠ 0 := Nat.ne_of_gt (sb.data_pos (free_data owned small free))
  have other : slotOf d (dns i) (.addr (Fin.last nDirect)) ≠ b := owned_free owned lt live free pos
  exact take_other other (data_not_bblock data small)

theorem reserved_take (owned : Owned sb dns d) (data : sb.Data b) :
    ∀ c < sb.dataStart, bit sb (takeBlock sb d b) c = true := by
  intro c below
  have := data.1
  rw [bit_take data (by have := data.2; omega), update_of_ne (by omega)]
  exact owned.reserved c below

theorem owned_attach (owned : Owned sb dns d) (small : b < sb.size) (free : bit sb d b = false)
    (empty : ownOf sb dns d l = none) (owners : ownOf sb dns' d' = update (ownOf sb dns d) l (some b))
    (bits : ∀ c < sb.size, bit sb d' c = bit sb (takeBlock sb d b) c) : Owned sb dns' d' where
  tracks := by
    have data := free_data owned small free
    rw [owners]
    apply tracks_marks (tracks_attach owned.tracks data free empty)
    intro c inside
    rw [bits c inside.2, bit_take data inside.2]
  reserved := by
    have data := free_data owned small free
    intro c below
    have := data.1
    rw [bits c (by omega)]
    exact reserved_take owned data c below

theorem toNat_ofNat_block (small : b < sb.size) : (UInt32.ofNat b).toNat = b := by
  have := sb.small
  rw [UInt32.toNat_ofNat']
  omega

theorem ownOf_update (lt : l.1 < sb.ninodes) (live : (dns l.1).type ≠ 0) (types : ∀ j, (dns' j).type = (dns j).type)
    (slots : ∀ j < sb.ninodes, (dns j).type ≠ 0 → ∀ slot,
      slotOf d' (dns' j) slot = if (j, slot) = l then b else slotOf d (dns j) slot) :
    ownOf sb dns' d' = update (ownOf sb dns d) l (if b = 0 then none else some b) := by
  funext m
  by_cases same : m = l
  · subst m
    have here := slots l.1 lt live l.2
    rw [if_pos rfl] at here
    rw [update_self, ownOf, here, types]
    by_cases zero : b = 0
    · simp [zero]
    · simp [zero, lt, live]
  rw [update_of_ne same]
  unfold ownOf
  by_cases bounded : m.1 < sb.ninodes
  · by_cases free : (dns m.1).type = 0
    · simp [types, free]
    have there := slots m.1 bounded free m.2
    rw [if_neg same] at there
    rw [there, types]
  · simp [bounded]

theorem slots_setAddr (owned : Owned sb dns d) {i b : Nat} (empty : ((dns i).addrs k).toNat = 0)
    (small : b < sb.size) (free : bit sb d b = false) {j : Nat} (lt : j < sb.ninodes)
    (live : (dns j).type ≠ 0) (slot : Slot) : slotOf (takeBlock sb d b)
        (update dns i ((dns i).setAddr k (UInt32.ofNat b)) j) slot =
      if (j, slot) = (i, .addr k) then b else slotOf d (dns j) slot := by
  have pos : b ≠ 0 := Nat.ne_of_gt (sb.data_pos (free_data owned small free))
  by_cases here : j = i
  · subst j
    rw [update_self]
    cases slot with
    | addr k' =>
      by_cases chosen : k' = k
      · simp [slotOf, Dinode.setAddr, toNat_ofNat_block small, chosen]
      · simp [slotOf, Dinode.setAddr, chosen]
    | word w =>
      rw [if_neg (by simp)]
      by_cases last : k = Fin.last nDirect
      · -- the words of the new indirect block are zero
        subst k
        have was : (dns i).indirect = 0 := empty
        have now : ((dns i).setAddr (Fin.last nDirect) (UInt32.ofNat b)).indirect = b := by
          simp [Dinode.indirect, Dinode.setAddr, toNat_ofNat_block small]
        rw [slotOf, slotOf, now, if_neg pos, take_zero, if_pos was]
        simp [word, getLE]
      have now : ((dns i).setAddr k (UInt32.ofNat b)).indirect = (dns i).indirect := by
        simp [Dinode.indirect, Dinode.setAddr, Ne.symm last]
      rw [slotOf, slotOf, now]
      by_cases zero : (dns i).indirect = 0
      · rw [if_pos zero, if_pos zero]
      · rw [if_neg zero, if_neg zero, take_indirect owned small free lt live zero]
  rw [update_of_ne here, if_neg (fun eq => here (Prod.mk.inj eq).1)]
  cases slot with
  | addr k' => rfl
  | word w =>
    rw [slotOf, slotOf]
    by_cases zero : (dns j).indirect = 0
    · rw [if_pos zero, if_pos zero]
    · rw [if_neg zero, if_neg zero, take_indirect owned small free lt live zero]

theorem owned_setAddr (owned : Owned sb dns d) {i b : Nat} (lt : i < sb.ninodes) (live : (dns i).type ≠ 0)
    (empty : ((dns i).addrs k).toNat = 0) (small : b < sb.size) (free : bit sb d b = false) :
    Owned sb (update dns i ((dns i).setAddr k (UInt32.ofNat b))) (takeBlock sb d b) := by
  have none : ownOf sb dns d (i, .addr k) = none := (ownOf_eq_none lt live).mpr empty
  apply owned_attach owned small free none _ (fun _ _ => rfl)
  have pos : b ≠ 0 := Nat.ne_of_gt (sb.data_pos (free_data owned small free))
  have types : ∀ j, (update dns i ((dns i).setAddr k (UInt32.ofNat b)) j).type = (dns j).type := by
    intro j
    by_cases here : j = i
    · subst j
      rw [update_self]
      rfl
    · rw [update_of_ne here]
  have owners := ownOf_update (l := (i, .addr k)) lt live types
    (fun j bounded used slot => slots_setAddr owned empty small free bounded used slot)
  rw [owners, if_neg pos]

def setWord (d : Disk) (a j b : Nat) : Disk := Function.update d a (putLE (d a) (4 * j) 4 b)

theorem word_setWord (d : Disk) (a j b : Nat) (small : b < 0x100000000) (w : Nat) :
    word (setWord d a j b a) w = if w = j then b else word (d a) w := by
  rw [setWord, update_self, word]
  by_cases same : w = j
  · rw [if_pos same, same, getLE_putLE]
    omega
  rw [if_neg same, getLE_putLE_apart _ _ _ _ _ _ (by omega)]
  rfl

section
variable (owned : Owned sb dns d)
include owned

theorem slots_setWord {i b : Nat} {w : Fin nIndirect} (lt : i < sb.ninodes) (live : (dns i).type ≠ 0)
    (nz : (dns i).indirect ≠ 0) (small : b < sb.size) (free : bit sb d b = false) {j : Nat}
    (inside' : j < sb.ninodes) (live' : (dns j).type ≠ 0) (slot : Slot) :
    slotOf (setWord (takeBlock sb d b) (dns i).indirect w b) (dns j) slot =
      if (j, slot) = (i, .word w) then b else slotOf d (dns j) slot := by
  have taken : takeBlock sb d b (dns i).indirect = d (dns i).indirect :=
    take_indirect owned small free lt live nz
  have bounded : b < 0x100000000 := by
    have := sb.small
    omega
  cases slot with
  | addr k =>
    rw [if_neg (by simp)]
    rfl
  | word v =>
    rw [slotOf, slotOf]
    by_cases zero : (dns j).indirect = 0
    · have other : j ≠ i := by
        rintro rfl
        exact nz zero
      rw [if_pos zero, if_pos zero, if_neg (fun eq => other (Prod.mk.inj eq).1)]
    rw [if_neg zero, if_neg zero]
    by_cases here : j = i
    · subst j
      rw [word_setWord _ _ _ _ bounded, taken]
      by_cases chosen : v = w
      · simp [chosen]
      have apart : (v : Nat) ≠ w := fun eq => chosen (Fin.ext eq)
      simp [chosen, apart]
    -- another inode's indirect block is another block
    have apart : (dns j).indirect ≠ (dns i).indirect := by
      intro same
      have first : slotOf d (dns j) (.addr (Fin.last nDirect)) ≠ 0 := zero
      have snd : slotOf d (dns i) (.addr (Fin.last nDirect)) = slotOf d (dns j) (.addr (Fin.last nDirect)) := same.symm
      exact here (owned_unique owned inside' live' lt live first snd).1
    rw [setWord, update_of_ne apart, take_indirect owned small free inside' live' zero,
      if_neg (fun eq => here (Prod.mk.inj eq).1)]

theorem owned_setWord {i b : Nat} {w : Fin nIndirect} (lt : i < sb.ninodes) (live : (dns i).type ≠ 0)
    (nz : (dns i).indirect ≠ 0) (empty : word (d (dns i).indirect) w = 0) (small : b < sb.size)
    (free : bit sb d b = false) : Owned sb dns (setWord (takeBlock sb d b) (dns i).indirect w b) := by
  have slot : slotOf d (dns i) (.word w) = 0 := by rw [slotOf, if_neg nz, empty]
  have none : ownOf sb dns d (i, .word w) = none := (ownOf_eq_none lt live).mpr slot
  have pos : b ≠ 0 := Nat.ne_of_gt (sb.data_pos (free_data owned small free))
  apply owned_attach owned small free none
  · have owners := ownOf_update (l := (i, .word w)) lt live (fun _ => rfl) (fun j bounded used slot =>
        slots_setWord (w := w) owned lt live nz small free bounded used slot)
    rw [owners, if_neg pos]
  intro c bounded
  have data := indirect_data owned lt live nz
  exact bit_update sb (Ne.symm (data_not_bblock data bounded))

theorem owned_write {data : Block} (inData : sb.Data b)
    (plain : ∀ i < sb.ninodes, (dns i).type ≠ 0 → (dns i).indirect ≠ b) : Owned sb dns (update d b data) := by
  have bits : ∀ c < sb.size, bit sb (update d b data) c = bit sb d c := by
    intro c small
    exact bit_update sb (Ne.symm (data_not_bblock inData small))
  constructor
  · have owners : ownOf sb dns (update d b data) = ownOf sb dns d := by
      apply ownOf_disk
      intro i inside live _
      exact update_of_ne (plain i inside live) _ _
    rw [owners]
    exact tracks_marks owned.tracks (fun c inside => bits c inside.2)
  intro c below
  have := inData.1
  have := inData.2
  rw [bits c (by omega)]
  exact owned.reserved c below

theorem owned_putDinode (lt : i < sb.ninodes) (dn : Dinode) : Owned sb dns (putDinode sb d i dn) := by
  have low := sb.iblock_lt lt
  have bits : ∀ c, bit sb (putDinode sb d i dn) c = bit sb d c := by
    intro c
    have := sb.bblock_le c
    exact bit_update sb (by omega)
  constructor
  · have owners : ownOf sb dns (putDinode sb d i dn) = ownOf sb dns d := by
      apply ownOf_disk
      intro j bounded live nz
      have data := (indirect_data owned bounded live nz).1
      have := sb.bmapstart_lt
      exact update_of_ne (by omega) _ _
    rw [owners]
    exact tracks_marks owned.tracks (fun c _ => bits c)
  intro c below
  rw [bits c]
  exact owned.reserved c below

theorem owned_congr (owners : ownOf sb dns' d = ownOf sb dns d) : Owned sb dns' d where
  tracks := owners ▸ owned.tracks
  reserved := owned.reserved

theorem owned_detach (held : ownOf sb dns d l = some b)
    (owners : ownOf sb dns' (setFree sb d b) = update (ownOf sb dns d) l none) : Owned sb dns' (setFree sb d b) where
  tracks := by
    rw [owners, bit_setFree]
    exact tracks_detach owned.tracks held
  reserved := by
    intro c below
    have data := (owned.tracks.inside l b held).1
    rw [bit_setFree, update_of_ne (by omega)]
    exact owned.reserved c below

end

theorem setFree_other {b c : Nat} (apart : c ≠ sb.bblock b) : setFree sb d b c = d c :=
  update_of_ne apart _ _

theorem clear_addr_types (dns : Nat → Dinode) (i : Nat) (k : Fin (nDirect + 1)) (j : Nat) :
    (update dns i ((dns i).setAddr k 0) j).type = (dns j).type := by
  by_cases here : j = i
  · subst j
    rw [update_self]
    rfl
  · rw [update_of_ne here]

def OnlyMap (sb : Superblock) (d d' : Disk) : Prop :=
  ∀ c, (∀ b < sb.size, c ≠ sb.bblock b) → d' c = d c

theorem onlyMap_refl : OnlyMap sb d d := fun _ _ => rfl

theorem onlyMap_setFree (only : OnlyMap sb d d') (small : b < sb.size) : OnlyMap sb d (setFree sb d' b) := by
  intro c spared
  rw [setFree_other (spared b small), only c spared]

theorem onlyMap_data (only : OnlyMap sb d d') {c : Nat} (data : sb.Data c) : d' c = d c :=
  only c fun _ small => data_not_bblock data small

theorem slots_clearAddr (owned : Owned sb dns d) (only : OnlyMap sb d d') {j : Nat} (lt : j < sb.ninodes)
    (live : (dns j).type ≠ 0) (slot : Slot) : slotOf d' (update dns i ((dns i).setAddr k 0) j) slot =
      if j = i ∧ (slot = .addr k ∨ k = Fin.last nDirect ∧ ∃ w, slot = .word w) then 0 else slotOf d (dns j) slot := by
  have words : ∀ w, slotOf d' (dns j) (.word w) = slotOf d (dns j) (.word w) := by
    intro w
    rw [slotOf, slotOf]
    by_cases zero : (dns j).indirect = 0
    · rw [if_pos zero, if_pos zero]
    · rw [if_neg zero, if_neg zero, onlyMap_data only (indirect_data owned lt live zero)]
  by_cases here : j = i
  · subst j
    rw [update_self]
    cases slot with
    | addr k' =>
      by_cases chosen : k' = k
      · simp [slotOf, Dinode.setAddr, chosen]
      · simp [slotOf, Dinode.setAddr, chosen]
    | word w =>
      by_cases last : k = Fin.last nDirect
      · subst k
        simp [slotOf, Dinode.indirect, Dinode.setAddr]
      have same : ((dns i).setAddr k 0).indirect = (dns i).indirect := by
        simp [Dinode.indirect, Dinode.setAddr, Ne.symm last]
      rw [if_neg (by simp [last]), ← words w, slotOf, slotOf, same]
  rw [update_of_ne here, if_neg (fun holds => here holds.1)]
  cases slot with
  | addr k' => rfl
  | word w => exact words w

theorem owned_clearAddr (owned : Owned sb dns d) (inside : i < sb.ninodes) (live : (dns i).type ≠ 0)
    (direct : k ≠ Fin.last nDirect) (nz : ((dns i).addrs k).toNat ≠ 0) :
    Owned sb (update dns i ((dns i).setAddr k 0)) (setFree sb d ((dns i).addrs k).toNat) := by
  have held : ownOf sb dns d (i, .addr k) = some ((dns i).addrs k).toNat :=
    ownOf_eq_some.mpr ⟨inside, live, nz, rfl⟩
  have only := onlyMap_setFree (d := d) onlyMap_refl (owned.tracks.inside _ _ held).2
  apply owned_detach owned held
  have slots : ∀ j < sb.ninodes, (dns j).type ≠ 0 → ∀ slot, slotOf (setFree sb d ((dns i).addrs k).toNat)
        (update dns i ((dns i).setAddr k 0) j) slot =
      if (j, slot) = (i, .addr k) then 0 else slotOf d (dns j) slot := by
    intro j bounded used slot
    rw [slots_clearAddr owned only bounded used slot]
    simp [direct]
  have owners := ownOf_update (l := (i, .addr k)) inside live (clear_addr_types dns i k) slots
  rw [owners, if_pos rfl]

def withoutWords (own : Nat × Slot → Option Nat) (i : Nat) (done : List Nat) (l : Nat × Slot) :
    Option Nat :=
  if l.1 = i ∧ ∃ w : Fin nIndirect, w.val ∈ done ∧ l.2 = .word w then none else own l

theorem owned_clearIndirect (owned : Owned sb dns d) (inside : i < sb.ninodes) (live : (dns i).type ≠ 0)
    (nz : (dns i).indirect ≠ 0) (only : OnlyMap sb d d') (reserved : ∀ b < sb.dataStart, bit sb d' b = true)
    (tracks : Tracks sb.Data (withoutWords (ownOf sb dns d) i (List.range nIndirect)) (bit sb d')) :
    Owned sb (update dns i ((dns i).setAddr (Fin.last nDirect) 0)) (setFree sb d' (dns i).indirect) := by
  have held : withoutWords (ownOf sb dns d) i (List.range nIndirect)
      (i, .addr (Fin.last nDirect)) = some (dns i).indirect := by
    rw [withoutWords, if_neg (by simp)]
    exact ownOf_eq_some.mpr ⟨inside, live, nz, rfl⟩
  have data := tracks.inside _ _ held
  have owners : ownOf sb (update dns i ((dns i).setAddr (Fin.last nDirect) 0))
      (setFree sb d' (dns i).indirect) =
      update (withoutWords (ownOf sb dns d) i (List.range nIndirect))
        (i, .addr (Fin.last nDirect)) none := by
    funext l
    obtain ⟨j, slot⟩ := l
    have types := clear_addr_types dns i (Fin.last nDirect) j
    by_cases bounded : j < sb.ninodes
    · by_cases used : (dns j).type = 0
      · have none : ownOf sb dns d (j, slot) = none := by simp [ownOf, used]
        have other : (j, slot) ≠ (i, Slot.addr (Fin.last nDirect)) := by
          rintro eq
          exact live ((Prod.mk.inj eq).1 ▸ used)
        rw [update_of_ne other, withoutWords, none, ite_self]
        simp [ownOf, types, used]
      have slots := slots_clearAddr owned (onlyMap_setFree only data.2) (i := i)
        (k := Fin.last nDirect) bounded used slot
      by_cases here : j = i
      · subst j
        unfold ownOf
        rw [types, slots]
        cases slot with
        | addr k =>
          by_cases last : k = Fin.last nDirect
          · simp [last]
          · simp [last, withoutWords]
        | word w => simp [withoutWords]
      have other : (j, slot) ≠ (i, Slot.addr (Fin.last nDirect)) :=
        fun eq => here (Prod.mk.inj eq).1
      rw [if_neg (fun holds => here holds.1)] at slots
      rw [update_of_ne other, withoutWords, if_neg (fun holds => here holds.1)]
      unfold ownOf
      rw [types, slots]
    have other : (j, slot) ≠ (i, Slot.addr (Fin.last nDirect)) := by
      rintro eq
      exact bounded ((Prod.mk.inj eq).1 ▸ inside)
    have none : ownOf sb dns d (j, slot) = none := by simp [ownOf, bounded]
    rw [update_of_ne other, withoutWords, none, ite_self]
    simp [ownOf, bounded]
  constructor
  · rw [owners, bit_setFree]
    exact tracks_detach tracks held
  intro c below
  have := data.1
  rw [bit_setFree, update_of_ne (by omega)]
  exact reserved c below

end

end Xv6Fs
