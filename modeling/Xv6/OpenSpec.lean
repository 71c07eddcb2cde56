import Xv6.TreeInv

/- The inodes of sys_open and sys_chdir. -/
namespace Xv6Fs
open Xv6 Bytes Outcome Ownership

section
variable {s : Fs} {h w : Ip → Nat} {n : Nat}

theorem openInode_spec (shape : Shape n (nodes s)) (size : s.sb.ninodes = n) (small : n ≤ 0x10000)
    (books : Books s h 0) {cwd : Ip} (mine : 0 < h cwd) (path : List UInt8) (omode : UInt32) :
    Ends (openInode cwd path omode) s (fun r t => (r = none ∧ Books t h 0 ∧ Steady h s t ∧ Unchanged s t) ∨
        ∃ ip, r = some ip ∧ Returned s h ip t ∧ (Unchanged s t ∨
          (omode &&& oCreate ≠ 0 ∧ Made n (nodes s) (s.itable cwd).inum path tFile (nodes t) ∧
            (t.itable ip).dn.type = tFile))) (UntypedIf (PathClimbs (nodes s) (s.itable cwd).inum path false)) := by
  apply ends_ite
  · intro creates
    apply ends_better (create_spec shape size small books mine path (by decide) 0 0
      (fun _ _ _ _ never => absurd never (by decide))) _
    rintro r t (none | ⟨ip, rfl, returned, ⟨_, same⟩ | new⟩)
    · exact .inl none
    · exact .inr ⟨ip, rfl, returned, .inl same⟩
    · exact .inr ⟨ip, rfl, returned, .inr ⟨creates, new⟩⟩
  intro _
  apply books_namei shape size books mine path (fun _ => id)
  · intro t kept steady same
    exact ends_pure (.inl ⟨rfl, kept, steady, same⟩)
  intro ip t kept steady same cached _ live
  rw [← same.1] at live
  apply get_then
  apply ends_ite
  · intro _
    rw [← zero_add (one ip)] at kept
    apply ends_step (unchanged_iunlockput kept) (untyped_other (by decide))
    rintro _ u ⟨kept', steady', same'⟩
    exact ends_pure (.inl ⟨rfl, kept', steady_trans steady steady', unchanged_trans same same'⟩)
  intro _
  exact ends_pure (.inr ⟨ip, rfl, ⟨books_settle (by rwa [zero_add]) live, steady, cached,
    books_unlinked kept cached.1 live⟩, .inl same⟩)

theorem chdirInode_spec (shape : Shape n (nodes s)) (size : s.sb.ninodes = n) {cwd : Ip}
    (books : Books s (h + one cwd) 0) (path : List UInt8) : Ends (chdirInode cwd path) s
      (fun r t => (r = none ∧ Books t (h + one cwd) 0 ∧ Steady (h + one cwd) s t ∧ Unchanged s t) ∨
        ∃ ip, r = some ip ∧ Books t (h + one ip) 0 ∧ t.sb = s.sb ∧ MayFree (nodes s) (s.itable cwd).inum (nodes t))
      (UntypedIf (PathClimbs (nodes s) (s.itable cwd).inum path false)) := by
  have mine : 0 < (h + one cwd) cwd := by
    rw [Pi.add_apply, one_self]
    omega
  apply books_namei shape size books mine path (fun _ => id)
  · intro t kept steady same
    exact ends_pure (.inl ⟨rfl, kept, steady, same⟩)
  intro ip t kept steady same cached _ live
  apply get_then
  apply ends_ite
  · intro _
    rw [← zero_add (one ip)] at kept
    apply ends_step (unchanged_iunlockput kept) (untyped_other (by decide))
    rintro _ u ⟨kept', steady', same'⟩
    exact ends_pure (.inl ⟨rfl, kept', steady_trans steady steady', unchanged_trans same same'⟩)
  intro _
  apply ends_step (books_iunlock kept ip) (untyped_other (by decide))
  rintro _ u ⟨kept', same', steady'⟩
  have num := steady_inum steady'
  have start : (u.itable cwd).inum = (s.itable cwd).inum :=
    ((steady'.2 cwd (by rw [Pi.add_apply]; omega)).1).trans (steady.2 cwd mine).1
  have settled : Books u (h + one ip + one cwd) 0 := by
    rw [add_right_comm]
    apply books_settle
    · rwa [zero_add]
    rw [num, same', same.1]
    exact live
  apply ends_step (books_iput_settled settled) (fun msg other text => absurd text other)
  rintro _ v ⟨kept'', steady'', freed⟩
  rw [start, same', same.1] at freed
  exact ends_pure (.inr ⟨ip, rfl, kept'', by rw [steady''.1, steady'.1, steady.1], freed⟩)

end

end Xv6Fs
