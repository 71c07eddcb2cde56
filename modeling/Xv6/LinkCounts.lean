import Mathlib.Algebra.Order.BigOperators.Group.Finset
import Xv6.Boot

/- Link counts. An inode's nlink is the number of entries that name it, without ".", in
   directories that have links themselves. -/
namespace Xv6Fs
open Xv6 Bytes Outcome Ownership Finset

def naming (n : Nat) (N : Nodes) (i : Nat) : Finset (Nat × Nat) :=
  ((Finset.range n).biUnion fun d => (Finset.range (N d).count).image (Prod.mk d)).filter fun l =>
    (N l.1).type = tDir ∧ 0 < (N l.1).nlink ∧ target N l = i ∧ ((N l.1).ent l.2).2 ≠ dot

section
variable {n : Nat} {N : Nodes} {i : Nat}

theorem mem_naming {l : Nat × Nat} : l ∈ naming n N i ↔ l.1 < n ∧ l.2 < (N l.1).count ∧
    (N l.1).type = tDir ∧ 0 < (N l.1).nlink ∧ target N l = i ∧ ((N l.1).ent l.2).2 ≠ dot := by
  unfold naming
  rw [mem_filter, mem_biUnion]
  constructor
  · rintro ⟨⟨d, small, mem⟩, rest⟩
    obtain ⟨k, below, rfl⟩ := mem_image.mp mem
    exact ⟨mem_range.mp small, mem_range.mp below, rest⟩
  rintro ⟨small, below, rest⟩
  exact ⟨⟨l.1, mem_range.mpr small, mem_image.mpr
    ⟨l.2, mem_range.mpr below, rfl⟩⟩, rest⟩

theorem links_card : links n N i = ((places n N).filter fun l => target N l = i).card +
    ((places n N).filter fun l => l.1 = i ∧ (N (target N l)).type = tDir).card + if i = rootIno then 1 else 0 := by
  unfold links weight
  rw [sum_add_distrib, card_filter, card_filter]

theorem linked_of_named (tree : TreeOk n N 0) (nonneg : ∀ j, 0 ≤ (N j).nlink) {d : Nat}
    (live : (N d).type ≠ 0) (home : ¬ Orphan N d) : 0 < (N d).nlink := by
  have count := tree.counts d live
  have pos : 0 < links n N d := by
    by_contra none
    obtain ⟨notRoot, unnamed, _⟩ := links_zero tree.bound (Nat.eq_zero_of_not_pos none)
    exact home ⟨notRoot, unnamed⟩
  have value := nlink16_toInt (nonneg d)
  change (N d).nlink.toUInt16.toNat = links n N d + 0 at count
  apply Int16.lt_iff_toInt_lt.mpr
  have zero : (0 : Int16).toInt = 0 := rfl
  omega

theorem home_of_linked (tree : TreeOk n N 0) (swept : Swept N) {d : Nat} (live : (N d).type ≠ 0)
    (linked : 0 < (N d).nlink) : ¬ Orphan N d := by
  intro orphan
  rw [orphan_bare tree swept orphan live] at linked
  exact absurd linked (by decide)

theorem naming_later (tree : TreeOk n N 0) (swept : Swept N) (nonneg : ∀ j, 0 ≤ (N j).nlink) (live : (N i).type ≠ 0) :
    ((naming n N i).filter fun l => 2 ≤ l.2) = (places n N).filter fun l => target N l = i := by
  ext l
  rw [mem_filter, mem_filter, mem_naming, mem_places]
  constructor
  · rintro ⟨⟨small, below, dir, _, same, _⟩, later⟩
    refine ⟨⟨small, dir, later, below, ?_⟩, same⟩
    rw [same]
    rintro rfl
    exact live tree.zero
  rintro ⟨⟨small, dir, later, below, used⟩, same⟩
  have named : Names N l.1 l.2 (target N l) := ⟨dir, later, below, rfl, used⟩
  have home : ¬ Orphan N l.1 := fun orphan => swept l.1 orphan _ _ named
  exact ⟨⟨small, below, dir, linked_of_named tree nonneg (type_of_dir dir) home, same,
    (tree.entries _ _ _ named).2.2.2.1⟩, later⟩

def children (n : Nat) (N : Nodes) (i : Nat) : Finset Nat :=
  (Finset.range n).filter fun d => (N d).type = tDir ∧ 0 < (N d).nlink ∧ parentOf N d = i

theorem naming_dotdot (tree : TreeOk n N 0) :
    ((naming n N i).filter fun l => ¬ 2 ≤ l.2) = (children n N i).image fun d => (d, 1) := by
  ext l
  rw [mem_filter, mem_naming, mem_image]
  constructor
  · rintro ⟨⟨small, _, dir, linked, same, other⟩, early⟩
    have snd : l.2 = 1 := by
      by_contra first
      have zero : l.2 = 0 := by omega
      rw [zero, (tree.dots l.1 dir).2.1] at other
      exact other rfl
    refine ⟨l.1, ?_, Prod.ext rfl snd.symm⟩
    unfold children
    rw [mem_filter, mem_range]
    unfold target at same
    rw [snd] at same
    exact ⟨small, dir, linked, same⟩
  rintro ⟨d, mem, rfl⟩
  unfold children at mem
  rw [mem_filter, mem_range] at mem
  obtain ⟨small, dir, linked, same⟩ := mem
  obtain ⟨two, _, snd, _⟩ := tree.dots d dir
  refine ⟨⟨small, Nat.lt_of_lt_of_le Nat.one_lt_two two, dir, linked, same, ?_⟩, by omega⟩
  rw [snd]
  decide

theorem children_erase (tree : TreeOk n N 0) (swept : Swept N) (nonneg : ∀ j, 0 ≤ (N j).nlink) :
    (children n N i).erase rootIno =
      ((places n N).filter fun l => l.1 = i ∧ (N (target N l)).type = tDir).image (target N) := by
  ext d
  unfold children
  rw [mem_erase, mem_filter, mem_range, mem_image]
  constructor
  · rintro ⟨notRoot, small, dir, linked, same⟩
    have named : ∃ d' k, Names N d' k d := by
      by_contra unnamed
      exact home_of_linked tree swept (type_of_dir dir) linked
        ⟨notRoot, fun d' k named => unnamed ⟨d', k, named⟩⟩
    obtain ⟨d', k, named⟩ := named
    have up : d' = i := (tree.child d' k d named dir).symm.trans same
    obtain ⟨mem, aim⟩ := (names_iff tree.bound).mp named
    refine ⟨(d', k), ?_, aim⟩
    rw [mem_filter, aim]
    exact ⟨mem, up, dir⟩
  rintro ⟨l, mem, rfl⟩
  rw [mem_filter] at mem
  obtain ⟨mem, up, dir⟩ := mem
  have named : Names N l.1 l.2 (target N l) := (names_iff tree.bound).mpr ⟨mem, rfl⟩
  have home : ¬ Orphan N (target N l) := fun orphan => orphan.2 l.1 l.2 named
  refine ⟨(tree.entries _ _ _ named).2.1, inside_of_type tree.bound (type_of_dir dir),
    dir, linked_of_named tree nonneg (type_of_dir dir) home, ?_⟩
  rw [tree.child _ _ _ named dir, up]

theorem root_child (tree : TreeOk n N 0) (nonneg : ∀ j, 0 ≤ (N j).nlink) : rootIno ∈ children n N i ↔ i = rootIno := by
  have live := type_of_dir tree.root
  unfold children
  rw [mem_filter, mem_range, tree.top]
  constructor
  · rintro ⟨_, _, _, same⟩
    exact same.symm
  rintro rfl
  exact ⟨inside_of_type tree.bound live, tree.root, linked_of_named tree nonneg live (fun orphan => orphan.1 rfl), rfl⟩

theorem naming_parents (tree : TreeOk n N 0) (swept : Swept N) (nonneg : ∀ j, 0 ≤ (N j).nlink) :
    ((naming n N i).filter fun l => ¬ 2 ≤ l.2).card =
      ((places n N).filter fun l => l.1 = i ∧ (N (target N l)).type = tDir).card + if i = rootIno then 1 else 0 := by
  have once : Set.InjOn (target N)
      ((places n N).filter fun l => l.1 = i ∧ (N (target N l)).type = tDir) := by
    intro l first m snd same
    rw [mem_coe, mem_filter] at first snd
    have one : Names N l.1 l.2 (target N l) := (names_iff tree.bound).mpr ⟨first.1, rfl⟩
    have two : Names N m.1 m.2 (target N m) := (names_iff tree.bound).mpr ⟨snd.1, rfl⟩
    rw [← same] at two
    exact tree.once _ _ _ _ _ one two first.2.2
  have pairs : Function.Injective fun d : Nat => (d, 1) := fun d e same => (Prod.mk.inj same).1
  rw [naming_dotdot tree, card_image_of_injective _ pairs, ← card_image_of_injOn once,
    ← children_erase tree swept nonneg]
  by_cases root : i = rootIno
  · rw [if_pos root, card_erase_add_one ((root_child tree nonneg).mpr root)]
  rw [if_neg root, erase_eq_of_notMem (fun mem => root ((root_child tree nonneg).mp mem)), Nat.add_zero]

theorem nlink_naming (tree : TreeOk n N 0) (swept : Swept N) (nonneg : ∀ j, 0 ≤ (N j).nlink)
    (live : (N i).type ≠ 0) : (N i).nlink.toInt = (naming n N i).card := by
  have parts := card_filter_add_card_filter_not (s := naming n N i) (fun l => 2 ≤ l.2)
  rw [naming_later tree swept nonneg live, naming_parents tree swept nonneg] at parts
  have count := tree.counts i live
  change (N i).nlink.toUInt16.toNat = links n N i + 0 at count
  rw [links_card] at count
  rw [nlink16_toInt (nonneg i)]
  omega

/-- The call adds entries to directories with links only, and no link to an inode that has 32767
    of them. -/
def Call.Rooted (N : Nodes) (cwd : Nat) (call : Call) : Prop :=
  ∀ d j, call.Adds N cwd d j → 0 < (N d).nlink ∧ ∀ i, j = some i → (N i).nlink ≠ 32767

theorem fits_of_rooted {s : Sys} (ok : SysOk true s) (e : Fin nproc × Call)
    (rooted : s.Makes (fun N cwd call => call.Rooted N cwd) e) :
    s.Makes (fun N cwd call => call.Fits true N cwd) e := by
  intro cwd mine d j adds
  obtain ⟨linked, top⟩ := rooted cwd mine d j adds
  refine ⟨?_, fun _ => ⟨linked, top⟩⟩
  intro i _ wrapped
  obtain ⟨_, _, strict⟩ := ok.sound
  have nonneg := (strict rfl).2.2 i
  rw [wrapped] at nonneg
  exact absurd nonneg (by decide)

/-- In every run of calls that meet the condition, every link count is exact. -/
theorem link_counts_exact {init s : Sys} {calls : List (Fin nproc × Call)} (start : SysOk true init)
    (run : Runs.Run (Runs.Guarded CallStep (Sys.Makes fun N cwd call => call.Rooted N cwd)) init calls s) :
    ∀ i < s.fs.sb.ninodes, (getDinode s.fs.sb s.fs.disk i).type ≠ 0 →
      (getDinode s.fs.sb s.fs.disk i).nlink.toInt = (naming s.fs.sb.ninodes (nodes s.fs) i).card := by
  have ok := run_sysOk start (fun u kept e rooted => fits_of_rooted kept e rooted) run
  obtain ⟨slack, tree, strict⟩ := ok.sound
  obtain ⟨rfl, swept, nonneg⟩ := strict rfl
  intro i inside live
  rw [← books_view ok.books] at live ⊢
  rw [← nodes_nlink s.fs inside live]
  apply nlink_naming tree swept nonneg
  rw [nodes_type s.fs inside]
  exact live

theorem link_counts_exact_chdir :
    (getDinode (afterCalls smallBoot [enterB]).fs.sb (afterCalls smallBoot [enterB]).fs.disk 3).nlink.toInt =
      (naming (afterCalls smallBoot [enterB]).fs.sb.ninodes (nodes (afterCalls smallBoot [enterB]).fs)
        3).card := by
  have returns : (Runs.exec nextSys smallBoot [enterB]).isSome = true := by decide +kernel
  have guarded : Runs.Run (Runs.Guarded CallStep (Sys.Makes fun N cwd call => call.Rooted N cwd))
      smallBoot [enterB] (afterCalls smallBoot [enterB]) := by
    apply Runs.guarded_of_run _ (run_after returns)
    intro before e t inside _ cwd _ d j adds
    have only : e = enterB := by
      have member := inside.subset (List.mem_append_right before (List.mem_singleton_self e))
      exact List.mem_singleton.mp member
    rw [only] at adds
    exact adds.elim
  exact link_counts_exact (boot_ok small_ok) guarded 3 (by decide +kernel) (by decide +kernel)

def createInRemoved : List (Fin nproc × Call) :=
  [enterB, (initproc, .unlink (some [46, 46, 47, 98])), (initproc, .open (some [102]) 0x202)]

/-- The file that is created has a link that no directory with links has. -/
theorem create_in_removed_miscounts :
    ¬ ∀ (sb : Superblock) (disk : Disk) (calls : List (Fin nproc × Call)) (s : Sys),
      ImageOk sb disk → Runs.Run CallStep (boot sb disk) calls s →
      ∀ i < s.fs.sb.ninodes, (getDinode s.fs.sb s.fs.disk i).type ≠ 0 →
        (getDinode s.fs.sb s.fs.disk i).nlink.toInt = (naming s.fs.sb.ninodes (nodes s.fs) i).card := by
  intro claimed
  have returns : (Runs.exec nextSys smallBoot createInRemoved).isSome = true := by decide +kernel
  have counted := claimed smallSb smallImage createInRemoved (afterCalls smallBoot createInRemoved)
    small_ok (run_after returns) 4 (by decide +kernel) (by decide +kernel)
  revert counted
  decide +kernel

end

end Xv6Fs
