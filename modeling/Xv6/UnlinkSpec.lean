import Xv6.LinkSpec

/- sys_unlink, and references that are given up: an inode without links goes with the last. -/
namespace Xv6Fs
open Xv6 Bytes Outcome Ownership

def MayFree (N : Nodes) (i : Nat) (N' : Nodes) : Prop :=
  N' = N ∨ ((N i).type ≠ 0 ∧ (N i).nlink = 0 ∧ N' = Function.update N i .free)

def removed (N : Nodes) (d k i : Nat) : Nodes :=
  if (N i).type = tDir then relinked (withEnt N d k (0, [])) d ((N d).nlink - 1)
  else withEnt N d k (0, [])

/-- The entry that the path names is removed; the directory that had it, and the inode that it
    named, may be freed. -/
def Unlinked (N : Nodes) (cwd : Nat) (path : List UInt8) (N' : Nodes) : Prop :=
  ∃ d name k i M, resolve N cwd path true = some (d, name) ∧ Names N d k i ∧
    ¬ (N i).nlink < 1 ∧ ((N i).type = tDir → ∀ k' j, ¬ Names N i k' j) ∧
    MayFree (removed N d k i) d M ∧ MayFree (relinked M i ((N i).nlink - 1)) i N'

theorem removed_type (N : Nodes) (d k i j : Nat) : (removed N d k i j).type = (N j).type := by
  unfold removed
  split
  · rw [(shape_relinked _ _ _ j).1, withEnt_type]
  · rw [withEnt_type]

theorem removed_nlink (N : Nodes) {d k i : Nat} (apart : i ≠ d) : (removed N d k i i).nlink = (N i).nlink := by
  unfold removed relinked
  split
  · rw [Function.update_of_ne apart, withEnt_nlink]
  · rw [withEnt_nlink]

theorem mayFree_other {N N' : Nodes} {d i : Nat} (freed : MayFree N d N') (apart : i ≠ d) : N' i = N i := by
  rcases freed with rfl | ⟨_, _, rfl⟩
  · rfl
  · rw [Function.update_of_ne apart]

section
variable {s : Fs} {h w : Ip → Nat} {n : Nat}

theorem books_iput_settled {ip : Ip} (books : Books s (h + one ip) 0) : Ends (iput ip) s
      (fun _ t => Books t h 0 ∧ Steady h s t ∧ MayFree (nodes s) (s.itable ip).inum (nodes t)) (UntypedIf False) := by
  apply ends_mono (books_iput books rfl) _ (untyped_other (by decide))
  rintro _ t ⟨kept, steady, freed⟩
  rw [add_zero] at steady
  refine ⟨kept, steady, ?_⟩
  rcases freed with same | ⟨_, live, bare, gone⟩
  · exact .inl same
  · exact .inr ⟨live, bare, gone⟩

theorem books_iunlockput_settled {ip : Ip} (books : Books s (h + one ip) 0) : Ends (iunlockput ip) s
      (fun _ t => Books t h 0 ∧ Steady h s t ∧ MayFree (nodes s) (s.itable ip).inum (nodes t)) (UntypedIf False) := by
  apply ends_step (books_iunlock books ip) (untyped_other (by decide))
  rintro _ t ⟨kept, same, steady⟩
  rw [add_zero] at steady
  have num := steady_inum steady
  apply ends_better (books_iput_settled kept) _
  rintro _ u ⟨kept', steady', freed⟩
  rw [same, num] at freed
  exact ⟨kept', steady_trans (steady_mono steady (le_counted h _)) steady', freed⟩

theorem unlinkKeeps_spec {ip : Ip} (books : Books s h w) (cached : Cached s ip) : Ends (unlinkKeeps ip) s
      (fun r t => t = s ∧ (r = false → (nodes s (s.itable ip).inum).type = tDir →
        ∀ k j, ¬ Names (nodes s) (s.itable ip).inum k j)) (UntypedIf False) := by
  apply get_then
  rw [type_cached books cached]
  apply ends_ite
  · intro _
    apply ends_step (books_isdirempty books cached) (untyped_other (by decide))
    rintro r t ⟨rfl, empty⟩
    refine ends_pure ⟨rfl, ?_⟩
    intro kept _
    apply empty
    cases r with
    | false => cases kept
    | true => rfl
  intro file
  exact ends_pure ⟨rfl, fun _ dir => absurd dir file⟩

theorem unlinkParent_spec {dp ip : Ip} (books : Books s h 0) (parent : Cached s dp) (cached : Cached s ip)
    (mine : 0 < h dp) : Ends (unlinkParent dp ip) s (fun _ t => Books t h 0 ∧ Steady h s t ∧
        nodes t = if (nodes s (s.itable ip).inum).type = tDir then
          relinked (nodes s) (s.itable dp).inum ((nodes s (s.itable dp).inum).nlink - 1) else nodes s)
      (fun _ => False) := by
  apply get_then
  rw [type_cached books cached]
  apply ends_ite
  · intro dir
    rw [if_pos dir]
    change Ends (do updDn dp _; iupdate dp; pure ()) s _ _
    apply books_relink books parent _ rfl rfl rfl (fun _ => mine)
    intro t kept steady _ tree _ _ _
    rw [add_zero] at steady
    refine ends_pure ⟨kept, steady, ?_⟩
    rw [tree, nlink_cached books parent]
    rfl
  intro file
  rw [if_neg file]
  exact ends_pure ⟨books, steady_refl h s, rfl⟩

def Dirent.zero : Dirent := ⟨0, List.replicate dirSiz 0⟩

theorem bytes_zero (t : Nat) : Dirent.zero.bytes.getD t 0 = 0 := by
  have zeros : Dirent.zero.bytes = List.replicate direntSize 0 := by decide
  rw [zeros, List.getD_eq_getElem?_getD, List.getElem?_replicate]
  split
  · rfl
  · rfl

theorem unlinkEntry_spec {dp ip : Ip} {k i : Nat} (books : Books s (h + one ip + one dp) 0)
    (parent : Cached s dp) (cached : Cached s ip) (num : (s.itable ip).inum = i)
    (named : Names (nodes s) (s.itable dp).inum k i) (apart : i ≠ (s.itable dp).inum) :
    Ends (unlinkEntry dp ip (direntSize * k)) s (fun r t => Books t h 0 ∧ Steady h s t ∧ r = 0 ∧
        ∃ M, MayFree (removed (nodes s) (s.itable dp).inum k i) (s.itable dp).inum M ∧
          MayFree (relinked M i ((nodes s i).nlink - 1)) i (nodes t)) (UntypedIf False) := by
  have mine := add_one_pos (h + one ip) dp
  have own := add_one_pos h ip
  have own' : 0 < (h + one ip + one dp) ip := by
    rw [Pi.add_apply]
    omega
  have kind : (s.itable dp).dn.type = tDir := by
    rw [type_cached books parent]
    exact named.1
  have place : direntSize * k + direntSize ≤ (s.itable dp).dn.size.toNat := by
    have below := named.2.2.1
    rw [node_cached books parent, count_of (by rw [kind]; decide), dirSlots_of kind] at below
    simp only [direntSize] at *
    omega
  apply ends_step (books_writeDirent books parent kind Dirent.zero (.inl place)
    List.length_replicate (fun t _ => (bytes_zero t).symm) (fun _ => mine)) (untyped_other (by decide))
  intro r t written
  apply ends_ite
  · intro _
    exact ends_throw (by decide)
  intro all
  rw [not_not] at all
  obtain ⟨kept, steady, parent1, tree1, others⟩ := written all
  rw [add_zero] at steady
  have tree1' : nodes t = withEnt (nodes s) (s.itable dp).inum k (0, []) := tree1
  have number1 : (t.itable ip).inum = i := ((steady.2 ip own').1).trans num
  have where1 := (steady.2 dp mine).1
  have cached1 : Cached t ip := cached_steady kept steady own' (.inl own') cached
  apply ends_step (unlinkParent_spec kept parent1 cached1 mine) (fun _ => False.elim)
  rintro _ u ⟨kept2, steady2, tree2⟩
  rw [number1, where1, tree1', withEnt_type, withEnt_nlink] at tree2
  have tree2' : nodes u = removed (nodes s) (s.itable dp).inum k i := tree2
  have number2 : (u.itable ip).inum = i := ((steady2.2 ip own').1).trans number1
  have where2 : (u.itable dp).inum = (s.itable dp).inum := ((steady2.2 dp mine).1).trans where1
  have cached2 : Cached u ip := cached_steady kept2 steady2 own' (.inl own') cached1
  apply ends_bind (books_iunlockput_settled kept2)
  rintro _ v ⟨kept3, steady3, freed⟩
  rw [where2, tree2'] at freed
  have number3 : (v.itable ip).inum = i := ((steady3.2 ip own).1).trans number2
  have cached3 : Cached v ip := cached_steady kept3 steady3 own (.inl own) cached2
  have inode : (nodes v i).nlink = (nodes s i).nlink := by
    rw [mayFree_other freed apart, removed_nlink _ apart]
  apply books_relink kept3 cached3 _ rfl rfl rfl (fun _ => own)
  intro x kept4 steady4 _ tree4 _ _ _
  rw [add_zero] at steady4
  have tree4' : nodes x = relinked (nodes v) i ((nodes s i).nlink - 1) := by
    rw [tree4, ← inode, ← number3, nlink_cached kept3 cached3]
    rfl
  have number4 : (x.itable ip).inum = i := ((steady4.2 ip own).1).trans number3
  apply ends_bind (books_iunlockput_settled kept4)
  rintro _ y ⟨kept5, steady5, freed'⟩
  rw [number4, tree4'] at freed'
  refine ends_pure ⟨kept5, ?_, rfl, _, freed, freed'⟩
  have most : h ≤ h + one ip + one dp := (le_counted h _).trans (le_counted _ _)
  have more : h ≤ h + one ip := le_counted h _
  exact steady_trans (steady_mono steady most) (steady_trans (steady_mono steady2 most)
    (steady_trans (steady_mono steady3 more) (steady_trans (steady_mono steady4 more) steady5)))

theorem unlinkFound_spec {dp ip : Ip} {k i : Nat} (books : Books s h (one dp + one ip)) (parent : Cached s dp)
    (num : (s.itable ip).inum = i) (named : Names (nodes s) (s.itable dp).inum k i)
    (live : (nodes s i).type ≠ 0) (apart : i ≠ (s.itable dp).inum) : Ends (unlinkFound dp ip (direntSize * k)) s
      (fun r t => Books t h 0 ∧ Steady h s t ∧ (r = -1 → t.disk = s.disk) ∧ (nodes t = nodes s ∨
        (¬ (nodes s i).nlink < 1 ∧ ((nodes s i).type = tDir → ∀ k' j, ¬ Names (nodes s) i k' j) ∧
          ∃ M, MayFree (removed (nodes s) (s.itable dp).inum k i) (s.itable dp).inum M ∧
            MayFree (relinked M i ((nodes s i).nlink - 1)) i (nodes t)))) (UntypedIf False) := by
  have own : 0 < (h + (one dp + one ip)) ip := by
    simp only [Pi.add_apply, one_self]
    omega
  have mine : 0 < (h + (one dp + one ip)) dp := by
    simp only [Pi.add_apply, one_self]
    omega
  apply ends_step (unchanged_ilock books (.inr (add_one_pos _ _))) _
  · rintro _ t ⟨kept, steady, ⟨same, disk⟩, cached, _⟩
    have number' : (t.itable ip).inum = i := ((steady.2 ip own).1).trans num
    have where' : (t.itable dp).inum = (s.itable dp).inum := (steady.2 dp mine).1
    have parent' : Cached t dp := cached_steady kept steady mine
      (.inr (Nat.add_pos_left (one_pos dp) _)) parent
    have prev : Steady h s t := steady_mono steady (le_counted h _)
    apply get_then
    rw [← nlink_cached kept cached, number', same]
    apply ends_ite
    · intro _
      exact ends_throw (by decide)
    intro linked
    apply ends_bind (unlinkKeeps_spec kept cached)
    rintro keep u ⟨rfl, empty⟩
    rw [number', same] at empty
    cases keep with
    | true =>
      change Ends (do iunlockput ip; iunlockput dp; pure (-1)) u _ _
      apply ends_step (unchanged_iunlockput kept) (untyped_other (by decide))
      rintro _ v ⟨kept1, steady1, same1⟩
      rw [← zero_add (one dp)] at kept1
      apply ends_step (unchanged_iunlockput kept1) (untyped_other (by decide))
      rintro _ x ⟨kept2, steady2, same2⟩
      obtain ⟨nodes2, disk2⟩ := unchanged_trans ⟨same, disk⟩ (unchanged_trans same1 same2)
      refine ends_pure ⟨kept2, ?_, fun _ => disk2, .inl nodes2⟩
      exact steady_trans prev (steady_trans (steady_mono steady1 (le_counted h _)) steady2)
    | false =>
      change Ends (unlinkEntry dp ip (direntSize * k)) u _ _
      have settled : Books u (h + one ip + one dp) 0 := by
        apply books_settle
        · rw [zero_add]
          apply books_settle kept
          rw [number', same]
          exact live
        rw [where', same]
        exact type_of_dir named.1
      have spec := unlinkEntry_spec settled parent' cached number'
        (by rw [where', same]; exact named) (by rw [where']; exact apart)
      rw [where', same] at spec
      apply ends_better spec _
      rintro _ v ⟨kept1, steady1, rfl, freed⟩
      exact ⟨kept1, steady_trans prev steady1, fun never => absurd never (by decide), .inr ⟨linked, empty rfl, freed⟩⟩
  intro msg free text
  rw [num] at free
  exact live (free text)

theorem names_of_slot {N : Nodes} (shape : Shape n N) {d k : Nat} (dir : (N d).type = tDir)
    {name : List UInt8} (found : (N d).slot name = some k) (plain : cname name ≠ dot)
    (plain' : cname name ≠ dotdot) : Names N d k ((N d).ent k).1 := by
  obtain ⟨below, used, same⟩ := slot_spec found
  obtain ⟨_, first, snd, _⟩ := shape.dots d dir
  refine ⟨dir, ?_, below, rfl, used⟩
  by_contra early
  rcases (by omega : k = 0 ∨ k = 1) with rfl | rfl
  · rw [first] at same
    exact plain same.symm
  rw [snd] at same
  exact plain' same.symm

theorem sysUnlink_spec (shape : Shape n (nodes s)) (size : s.sb.ninodes = n) (books : Books s h 0) {cwd : Ip}
    (mine : 0 < h cwd) (path : List UInt8) : Ends (sysUnlink cwd (some path)) s
      (fun r t => Books t h 0 ∧ Steady h s t ∧ (r = -1 → t.disk = s.disk) ∧
        (nodes t = nodes s ∨ Unlinked (nodes s) (s.itable cwd).inum path (nodes t)))
      (UntypedIf (PathClimbs (nodes s) (s.itable cwd).inum path true)) := by
  apply ends_bind (namex_spec shape size books mine path true)
  rintro r t ⟨steady, disk, same, ⟨rfl, _, kept⟩ | ⟨dp, name, rfl, aim, kept⟩⟩
  · exact ends_pure ⟨kept, steady, fun _ => disk, .inl same⟩
  have dir := walk_parent aim
  apply ends_step (unchanged_ilock kept (.inr (one_pos _))) _
  · rintro _ u ⟨kept', steady', same', cached, _⟩
    have num := steady_inum steady'
    have still : Unchanged s u := unchanged_trans ⟨same, disk⟩ same'
    have tree : nodes u = nodes s := still.1
    have prev : Steady h s u := steady_trans steady (steady_mono steady' (le_counted h _))
    rw [← num] at aim dir
    have borrowed : Books u h (0 + one dp) := by rwa [zero_add]
    have back : Ends (do iunlockput dp; pure (-1)) u
        (fun r v => Books v h 0 ∧ Steady h s v ∧ (r = (-1 : Int) → v.disk = s.disk) ∧
          (nodes v = nodes s ∨ Unlinked (nodes s) (s.itable cwd).inum path (nodes v)))
        (UntypedIf (PathClimbs (nodes s) (s.itable cwd).inum path true)) := by
      apply ends_step (unchanged_iunlockput borrowed) (untyped_other (by decide))
      rintro _ v ⟨kept1, steady1, same1⟩
      obtain ⟨nodes1, disk1⟩ := unchanged_trans still same1
      exact ends_pure ⟨kept1, steady_trans prev steady1, fun _ => disk1, .inl nodes1⟩
    apply ends_ite
    · intro _
      exact back
    intro plain
    rw [namecmp_eq_zero, namecmp_eq_zero, cname_dot, cname_dotdot, not_or] at plain
    have reach := slot_inside shape (by rw [prev.1, size]) tree rfl dir name
    apply ends_step (ends_and (books_dirlookup kept' cached name reach)
      (dirlookup_disk kept' cached name)) (fun msg mem text => absurd (text ▸ mem.1.1) (by decide))
    rintro r v ⟨⟨_, ⟨rfl, rfl, _⟩ | ⟨ip, k, rfl, slot, kept1, same1, steady1, named⟩⟩, disk1⟩
    · exact back
    rw [tree] at slot named
    have there := steady_inum steady1
    have entry := names_of_slot shape dir slot plain.1 plain.2
    obtain ⟨live, _, apart, _⟩ := shape.entries _ _ _ entry
    have tree1 : nodes v = nodes s := same1.trans tree
    have spec := unlinkFound_spec kept1 (cached_steady kept1 steady1 (add_one_pos _ _)
        (.inr (Nat.add_pos_left (one_pos dp) _)) cached) named
      (by rw [tree1, there]; exact entry) (by rw [tree1]; exact live)
      (by rw [there]; exact apart)
    rw [there, tree1] at spec
    have after : Steady h s v := steady_trans prev (steady_mono steady1 (le_counted h _))
    apply ends_mono spec _ (fun msg other text => absurd text other)
    rintro _ x ⟨kept2, steady2, disk2, tree2⟩
    have fails := fun failed => (disk2 failed).trans (disk1.trans still.2)
    rcases tree2 with tree2 | ⟨linked, empty, M, freed, freed'⟩
    · exact ⟨kept2, steady_trans after steady2, fails, .inl tree2⟩
    exact ⟨kept2, steady_trans after steady2, fails, .inr ⟨_, name, k, _, M, aim, entry, linked, empty, freed, freed'⟩⟩
  intro msg free text
  have gone := free text
  rw [same, dir] at gone
  cases gone

end

end Xv6Fs
