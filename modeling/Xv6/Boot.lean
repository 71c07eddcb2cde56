import Xv6.BlockOwnership
import Xv6.SysInv

/- The state that a machine boots into from a disk image, and when it is consistent. -/
namespace Xv6Fs
open Xv6 Bytes Outcome Ownership

/-- userinit has given the first process the root directory. -/
def boot (sb : Superblock) (disk : Disk) : Sys where
  fs := ⟨sb, disk, fun ip => if ip = 0 then ⟨rootIno, 1, false, false, blankDinode 0⟩
    else ⟨0, 0, false, false, blankDinode 0⟩⟩
  ftable := fun _ => ⟨.none, 0, false, false, 0, 0, 0⟩
  cwd := fun p => if p = initproc then some 0 else none
  ofile := fun _ _ => none

def diskNodes (sb : Superblock) (disk : Disk) : Nodes := fun i =>
  if i < sb.ninodes then nodeOf disk (getDinode sb disk i) else .free

/-- An image whose blocks and directories are consistent. -/
structure ImageOk (sb : Superblock) (disk : Disk) : Prop where
  owned : Owned sb (getDinode sb disk) disk
  full : ∀ i < sb.ninodes, (getDinode sb disk i).type ≠ 0 → Full disk (getDinode sb disk i)
  tree : TreeOk sb.ninodes (diskNodes sb disk) 0
  swept : Swept (diskNodes sb disk)
  linked : ∀ i < sb.ninodes, (getDinode sb disk i).type ≠ 0 → 0 < (getDinode sb disk i).nlink
  small : sb.ninodes ≤ 0x10000

section
variable {sb : Superblock} {disk : Disk}

theorem boot_idle {ip : Ip} (other : ip ≠ 0) :
    (boot sb disk).fs.itable ip = ⟨0, 0, false, false, blankDinode 0⟩ := if_neg other

theorem boot_uncached (ip : Ip) : ¬ Cached (boot sb disk).fs ip := by
  rintro ⟨_, valid⟩
  change (if ip = 0 then _ else _ : Inode).valid = true at valid
  split at valid
  · cases valid
  · cases valid

theorem boot_view (i : Nat) : view (boot sb disk).fs i = getDinode sb disk i :=
  view_uncached (fun ip cached => absurd cached (boot_uncached ip))

theorem boot_nodes : nodes (boot sb disk).fs = diskNodes sb disk := by
  funext i
  unfold nodes diskNodes
  rw [boot_view]
  rfl

variable (sb disk) in
theorem boot_ref (ip : Ip) : ((boot sb disk).fs.itable ip).ref = ((boot sb disk).holders ip : Nat) := by
  have cwds : tally (boot sb disk).cwd = one 0 := by
    unfold tally
    rw [Finset.sum_eq_single initproc]
    · rfl
    · intro p _ other
      change oneOf (if p = initproc then some 0 else none) = 0
      rw [if_neg other]
      rfl
    intro absent
    exact absurd (Finset.mem_univ _) absent
  have files : tally (fun f => ((boot sb disk).ftable f).inode) = 0 := by
    unfold tally
    apply Finset.sum_eq_zero
    intro f _
    rfl
  unfold Sys.holders
  rw [cwds, files, add_zero]
  by_cases here : ip = 0
  · rw [here, one_self]
    rfl
  rw [boot_idle here, one_other here]
  rfl

theorem boot_ok (image : ImageOk sb disk) : SysOk true (boot sb disk) := by
  have root : rootIno < sb.ninodes := inside_of_type image.tree.bound (type_of_dir image.tree.root)
  have live : (getDinode sb disk rootIno).type ≠ 0 := by
    have typed := type_of_dir image.tree.root
    unfold diskNodes at typed
    rwa [if_pos root, nodeOf_type] at typed
  have only : ∀ ip, 0 < ((boot sb disk).fs.itable ip).ref → ip = 0 := by
    intro ip active
    by_contra other
    rw [boot_idle other] at active
    exact absurd active (lt_irrefl 0)
  have table : Table (boot sb disk).fs := by
    refine ⟨?_, ?_, ?_⟩
    · intro ip jp first snd _
      rw [only ip first, only jp snd]
    · intro ip
      rw [boot_ref sb disk]
      exact Int.natCast_nonneg _
    intro ip cached
    exact absurd cached (boot_uncached ip)
  have inv : Inv (boot sb disk).fs := inv_intro _ (fun i _ => boot_view i) table image.owned image.full
  constructor
  · refine ⟨inv, ?_, ?_, ?_, ?_, ?_, ?_⟩
    · intro ip cached
      exact absurd cached (boot_uncached ip)
    · intro ip
      rw [add_zero]
      exact boot_ref sb disk ip
    · intro ip active
      rw [only ip active]
      exact root
    · intro ip cached
      exact absurd cached (boot_uncached ip)
    · intro ip settled
      have active : 0 < ((boot sb disk).fs.itable ip).ref := by
        have total := boot_ref sb disk ip
        omega
      rw [only ip active, boot_view]
      exact live
    intro i inside allocated bare
    rw [boot_view] at allocated bare
    have pos := image.linked i inside allocated
    rw [bare] at pos
    exact absurd pos (by decide)
  · rw [boot_nodes]
    refine ⟨0, image.tree, fun _ => ⟨rfl, image.swept, ?_⟩⟩
    intro i
    unfold diskNodes
    split
    · rename_i inside
      unfold nodeOf
      split
      · decide
      rename_i allocated
      exact Int16.le_of_lt (image.linked i inside allocated)
    · decide
  · exact image.small
  intro _ _
  rfl

/- Images whose inodes have no block but the first. -/

theorem owned_of_first (dns : Nat → Dinode)
    (first : ∀ i < sb.ninodes, (dns i).type ≠ 0 → ∀ k, k ≠ 0 → (dns i).addrs k = 0)
    (data : ∀ i < sb.ninodes, (dns i).type ≠ 0 → (dns i).addrs 0 ≠ 0 →
      sb.dataStart ≤ ((dns i).addrs 0).toNat ∧ ((dns i).addrs 0).toNat < sb.size)
    (unique : ∀ i < sb.ninodes, ∀ j < sb.ninodes, (dns i).type ≠ 0 ∧ (dns j).type ≠ 0 ∧
      (dns i).addrs 0 ≠ 0 ∧ (dns i).addrs 0 = (dns j).addrs 0 → i = j) (marked : ∀ b < sb.size, sb.dataStart ≤ b →
      (bit sb disk b = true ↔ ∃ i < sb.ninodes, (dns i).type ≠ 0 ∧ ((dns i).addrs 0).toNat = b))
    (reserved : ∀ b < sb.dataStart, bit sb disk b = true) : Owned sb dns disk := by
  have cases : ∀ l b, ownOf sb dns disk l = some b → l.1 < sb.ninodes ∧ (dns l.1).type ≠ 0 ∧
      l.2 = .addr 0 ∧ (dns l.1).addrs 0 ≠ 0 ∧ ((dns l.1).addrs 0).toNat = b := by
    rintro ⟨i, slot⟩ b held
    obtain ⟨inside, live, nz, same⟩ := ownOf_eq_some.mp held
    cases slot with
    | addr k =>
      by_cases zero : k = 0
      · subst k
        refine ⟨inside, live, rfl, ?_, same⟩
        intro none
        rw [slotOf, none] at same
        exact nz same.symm
      rw [slotOf, first i inside live k zero] at same
      exact absurd same.symm nz
    | word w =>
      have none : (dns i).indirect = 0 := by
        rw [Dinode.indirect, first i inside live _ (by decide)]
        rfl
      rw [slotOf, if_pos none] at same
      exact absurd same.symm nz
  refine ⟨⟨?_, ?_, ?_⟩, reserved⟩
  · intro l b held
    obtain ⟨inside, live, _, nz, rfl⟩ := cases l b held
    exact data l.1 inside live nz
  · intro l m b held held'
    obtain ⟨inside, live, place, nz, same⟩ := cases l b held
    obtain ⟨inside', live', place', _, same'⟩ := cases m b held'
    have eq := unique l.1 inside m.1 inside'
      ⟨live, live', nz, UInt32.toNat_inj.mp (same.trans same'.symm)⟩
    exact Prod.ext eq (place.trans place'.symm)
  intro b area
  rw [marked b area.2 area.1]
  constructor
  · rintro ⟨i, inside, live, same⟩
    refine ⟨(i, .addr 0), ownOf_eq_some.mpr ⟨inside, live, ?_, same⟩⟩
    have := sb.data_pos area
    omega
  rintro ⟨l, held⟩
  obtain ⟨inside, live, _, _, same⟩ := cases l b held
  exact ⟨l.1, inside, live, same⟩

theorem full_of_first {dn : Dinode} (short : dn.size.toNat ≤ bSize)
    (present : dn.size ≠ 0 → dn.addrs 0 ≠ 0) : Full disk dn := by
  intro bn below
  have zero : bn = 0 := by
    simp only [bSize] at *
    omega
  subst bn
  have nz : dn.addrs 0 ≠ 0 := by
    apply present
    intro none
    rw [none] at below
    exact absurd below (Nat.not_lt_zero _)
  rw [fileBlock_small (by decide)]
  intro same
  exact nz (UInt32.toNat_inj.mp same)

/-- Entry k of d, if it is in use and not one of the first two, names an allocated inode, and no
    later entry names the same directory. -/
def EntryOk (N : Nodes) (d k : Nat) : Prop :=
  (N d).type = tDir ∧ 2 ≤ k ∧ ((N d).ent k).1 ≠ 0 →
    (N ((N d).ent k).1).type ≠ 0 ∧ ((N d).ent k).1 ≠ rootIno ∧ ((N d).ent k).1 ≠ d ∧
    ((N d).ent k).2 ≠ dot ∧ ((N d).ent k).2 ≠ dotdot ∧
    ((N ((N d).ent k).1).type = tDir → parentOf N ((N d).ent k).1 = d ∧
      ∀ k' < k, 2 ≤ k' → ((N d).ent k').1 ≠ ((N d).ent k).1)

instance (N : Nodes) (d k : Nat) : Decidable (EntryOk N d k) := by
  unfold EntryOk
  infer_instance

theorem tree_of_entries {n : Nat} {N : Nodes} (bound : ∀ i, n ≤ i → (N i).type = 0)
    (zero : (N 0).type = 0) (root : (N rootIno).type = tDir)
    (dots : ∀ d < n, (N d).type = tDir → 2 ≤ (N d).count ∧ (N d).ent 0 = (d, dot) ∧
      ((N d).ent 1).2 = dotdot ∧ parentOf N d ≠ 0 ∧ parentOf N d < n) (top : parentOf N rootIno = rootIno)
    (entries : ∀ d < n, ∀ k < (N d).count, EntryOk N d k)
    (counts : ∀ i < n, (N i).type ≠ 0 → (N i).nlink16 = links n N i) : TreeOk n N 0 := by
  have child : ∀ d k j, Names N d k j → (N j).type = tDir → parentOf N j = d ∧ ∀ k' < k, ¬ Names N d k' j := by
    rintro d k j ⟨dir, later, below, rfl, used⟩ folder
    obtain ⟨up, first⟩ := (entries d (inside_of_type bound (type_of_dir dir)) k below
      ⟨dir, later, used⟩).2.2.2.2.2 folder
    exact ⟨up, fun k' earlier names => first k' earlier names.2.1 names.2.2.2.1⟩
  refine ⟨⟨bound, zero, root, ?_, top, ?_, ?_, ?_⟩, ?_⟩
  · intro d dir
    exact dots d (inside_of_type bound (type_of_dir dir)) dir
  · rintro d k j ⟨dir, later, below, rfl, used⟩
    obtain ⟨live, notRoot, apart, plain, plain', _⟩ :=
      entries d (inside_of_type bound (type_of_dir dir)) k below ⟨dir, later, used⟩
    exact ⟨live, notRoot, apart, plain, plain'⟩
  · intro d k j names folder
    exact (child d k j names folder).1
  · intro d k d' k' j names names' folder
    have same : d = d' := (child d k j names folder).1.symm.trans (child d' k' j names' folder).1
    subst d'
    rcases Nat.lt_trichotomy k k' with earlier | rfl | later
    · exact absurd names ((child d k' j names' folder).2 k earlier)
    · rfl
    · exact absurd names' ((child d k j names folder).2 k' later)
  intro i live
  exact counts i (inside_of_type bound live) live

theorem swept_of_linked {n : Nat} {N : Nodes} (named : ∀ d < n, (N d).type = tDir →
    d = rootIno ∨ ∃ d' < n, ∃ k < (N d').count, (N d').type = tDir ∧ 2 ≤ k ∧ ((N d').ent k).1 = d)
    (bound : ∀ i, n ≤ i → (N i).type = 0) (zero : (N 0).type = 0) : Swept N := by
  intro d orphan k j found
  rcases named d (inside_of_type bound (type_of_dir found.1)) found.1 with root | above
  · exact orphan.1 root
  obtain ⟨d', _, k', below, dir, later, aim⟩ := above
  refine orphan.2 d' k' ⟨dir, later, below, aim, ?_⟩
  rintro rfl
  exact type_of_dir found.1 zero

/- A small image: the root directory, "a" in it, and "b" in that. -/

def direntBytes (entries : List (UInt16 × List UInt8)) : List UInt8 :=
  entries.flatMap fun e => Dirent.bytes ⟨e.1, strncpy dirSiz e.2⟩

def dinodeBytes (dn : Dinode) : List UInt8 := (List.range 64).map dn.byte

def dirDinode (nlink : Int16) (size addr : UInt32) : Dinode :=
  ⟨tDir, 0, 0, nlink, size, fun k => if k = 0 then addr else 0⟩

def smallSb : Superblock where
  size := 16
  nblocks := 8
  ninodes := 6
  nlog := 0
  logstart := 2
  inodestart := 2
  bmapstart := 3
  log_end := tinySb.log_end
  inodes_end := by decide
  bitmap_end := tinySb.bitmap_end
  blocks_inside := tinySb.blocks_inside
  small := tinySb.small

def nameA : List UInt8 := [97]
def nameB : List UInt8 := [98]

def smallImage : Disk := fun b k =>
  List.getD (match b with
    | 2 => List.replicate 64 0 ++ dinodeBytes (dirDinode 2 48 8) ++
        dinodeBytes (dirDinode 2 48 9) ++ dinodeBytes (dirDinode 1 32 10)
    | 3 => [0xff, 0x07]
    | 8 => direntBytes [(1, dot), (1, dotdot), (2, nameA)]
    | 9 => direntBytes [(2, dot), (1, dotdot), (3, nameB)]
    | 10 => direntBytes [(3, dot), (2, dotdot)]
    | _ => []) k 0

theorem small_bound (i : Nat) (beyond : 6 ≤ i) : (diskNodes smallSb smallImage i).type = 0 := by
  unfold diskNodes
  rw [if_neg (by change ¬ i < 6; omega)]
  rfl

theorem small_tree : TreeOk 6 (diskNodes smallSb smallImage) 0 :=
  tree_of_entries small_bound (by decide +kernel) (by decide +kernel) (by decide +kernel)
    (by decide +kernel) (by decide +kernel) (by decide +kernel)

theorem small_ok : ImageOk smallSb smallImage where
  owned := owned_of_first _ (by decide +kernel) (by decide +kernel) (by decide +kernel)
    (by decide +kernel) (by decide +kernel)
  full := by
    intro i inside live
    have checked : ∀ i < 6, (getDinode smallSb smallImage i).size.toNat ≤ bSize ∧
        ((getDinode smallSb smallImage i).size ≠ 0 → (getDinode smallSb smallImage i).addrs 0 ≠ 0) := by decide +kernel
    exact full_of_first (checked i inside).1 (checked i inside).2
  tree := small_tree
  swept := swept_of_linked (n := 6) (by decide +kernel) small_bound (by decide +kernel)
  linked := by decide +kernel
  small := by decide

def enterB : Fin nproc × Call := (initproc, .chdir (some [97, 47, 98]))

def smallBoot : Sys := boot smallSb smallImage

def afterCalls (init : Sys) (calls : List (Fin nproc × Call)) : Sys :=
  (Runs.exec nextSys init calls).getD init

theorem run_after {init : Sys} {calls : List (Fin nproc × Call)}
    (returns : (Runs.exec nextSys init calls).isSome = true) :
    Runs.Run CallStep init calls (afterCalls init calls) := by
  apply run_of_exec
  obtain ⟨t, done⟩ := Option.isSome_iff_exists.mp returns
  rw [afterCalls, done]
  rfl

end

end Xv6Fs
