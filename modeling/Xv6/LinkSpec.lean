import Xv6.CreateSpec

/- sys_link: one more name for a file. -/
namespace Xv6Fs
open Xv6 Bytes Outcome Ownership Function

section
variable {s : Fs} {h w : Ip → Nat} {n : Nat}

theorem relinked_self (N : Nodes) (i : Nat) (v : Int16) : relinked (relinked N i v) i (N i).nlink = N := by
  unfold relinked
  rw [update_self, update_idem]
  exact update_eq_self i N

theorem linkBad_spec {N : Nodes} {i : Nat} {ip : Ip} (books : Books s (h + one ip) 0)
    (num : (s.itable ip).inum = i) (tree : nodes s = relinked N i ((N i).nlink + 1))
    (live : (N i).type ≠ 0) (unlinked : (N i).nlink = 0 → 0 < h ip) : Ends (linkBad ip) s
      (fun _ t => Books t h 0 ∧ Steady h s t ∧ nodes t = N ∧
        t.disk = putDinode s.sb s.disk i ((getDinode s.sb s.disk i).setNlink (N i).nlink)) (UntypedIf False) := by
  have own := add_one_pos h ip
  have typed : (nodes s i).type ≠ 0 := by
    rw [tree, relinked, update_self]
    exact live
  apply ends_step (unchanged_ilock books (.inl own)) _
  · rintro _ t ⟨kept, steady, ⟨same, disk⟩, cached, _⟩
    rw [add_zero] at steady
    have number' : (t.itable ip).inum = i := ((steady.2 ip own).1).trans num
    have copy : (t.itable ip).dn = getDinode s.sb s.disk i := by
      rw [← kept.sync ip cached, steady.1, disk, number']
    have nlink : (t.itable ip).dn.nlink = (N i).nlink + 1 := by
      rw [← nlink_cached kept cached, number', same, tree, relinked, update_self]
      rfl
    apply books_relink kept cached _ rfl rfl rfl (fun _ => own)
    intro u kept' steady' _ tree' _ _ disk'
    rw [add_zero] at steady'
    have value : (t.itable ip).dn.nlink - 1 = (N i).nlink := by
      rw [nlink]
      grind
    have back : nodes u = N := by
      rw [tree', number', same, tree]
      change relinked (relinked N i _) i ((t.itable ip).dn.nlink - 1) = N
      rw [value, relinked_self]
    have number'' : (u.itable ip).inum = i := ((steady'.2 ip own).1).trans number'
    have borrowed : Books u h (0 + one ip) := by
      apply books_unsettle kept'
      rw [number'', back]
      exact unlinked
    apply ends_step (unchanged_iunlockput borrowed) (untyped_other (by decide))
    rintro _ v ⟨kept'', steady'', same''⟩
    refine ends_pure ⟨kept'', ?_, same''.1.trans back, ?_⟩
    · exact steady_trans (steady_mono steady (le_counted h _))
        (steady_trans (steady_mono steady' (le_counted h _)) steady'')
    · rw [same''.2, disk', number', steady.1, disk, value, copy]
  intro msg free text
  rw [num] at free
  exact typed (free text)

def Linked (N : Nodes) (cwd : Nat) (old new : List UInt8) (N' : Nodes) : Prop :=
  ∃ i d name k, (∃ last, resolve N cwd old false = some (i, last)) ∧ (N i).type ≠ 0 ∧
    (N i).type ≠ tDir ∧ resolve N cwd new true = some (d, name) ∧ (N d).slot name = none ∧
    (N d).type = tDir ∧ VacantSlot (N d) k ∧
    N' = withEnt (relinked N i ((N i).nlink + 1)) d k (i, cname name)

theorem linkNew_spec {N : Nodes} {i : Nat} {ip cwd : Ip} (shape : Shape n N)
    (size : s.sb.ninodes = n) (small : n ≤ 0x10000) (books : Books s (h + one ip) 0)
    (mine : 0 < h cwd) (num : (s.itable ip).inum = i) (tree : nodes s = relinked N i ((N i).nlink + 1))
    (live : (N i).type ≠ 0) (unlinked : (N i).nlink = 0 → 0 < h ip) (new : List UInt8)
    (room : ∀ d name, resolve N (s.itable cwd).inum new true = some (d, name) →
      (N d).slot name = none → (N i).nlink ≠ -1) : Ends (linkNew cwd ip new) s
      (fun r t => Books t h 0 ∧ Steady h s t ∧ (r = -1 → t.disk =
          putDinode s.sb s.disk i ((getDinode s.sb s.disk i).setNlink (N i).nlink)) ∧
        (nodes t = N ∨ ∃ d name k, resolve N (s.itable cwd).inum new true = some (d, name) ∧
          (N d).slot name = none ∧ (N d).type = tDir ∧ VacantSlot (N d) k ∧
          nodes t = withEnt (relinked N i ((N i).nlink + 1)) d k (i, cname name)))
      (UntypedIf (PathClimbs N (s.itable cwd).inum new true)) := by
  have same := shape_relinked N i ((N i).nlink + 1)
  have shape' : Shape n (nodes s) := by
    rw [tree]
    exact shape_kept shape same
  have walks : resolve (nodes s) (s.itable cwd).inum new true = resolve N (s.itable cwd).inum new true := by
    rw [tree]
    exact walk_shape same _ _ _
  have own := add_one_pos h ip
  have here : 0 < (h + one ip) cwd := by
    rw [Pi.add_apply]
    omega
  apply ends_step (namex_spec shape' size books here new true) _
  · rw [walks]
    rintro r t ⟨steady, disk1, tree1, ⟨rfl, _, kept⟩ | ⟨dp, name, rfl, aim, kept⟩⟩
    · have number1 := ((steady.2 ip own).1).trans num
      apply ends_mono (linkBad_spec kept number1 (tree1.trans tree) live unlinked)
      · rintro _ u ⟨kept', steady', back, disk2⟩
        rw [disk1, steady.1] at disk2
        exact ⟨kept', steady_trans (steady_mono steady (le_counted h _)) steady', fun _ => disk2, .inl back⟩
      intro msg other text
      exact absurd text other
    have dir := walk_parent aim
    have folder : (nodes t (t.itable dp).inum).type = tDir := by
      rw [tree1, tree, (same _).1]
      exact dir
    apply ends_step (unchanged_ilock kept (.inr (one_pos _)))
      (fun msg free text => absurd (free text) (type_of_dir folder))
    rintro _ u ⟨kept', steady', ⟨tree2, disk2⟩, cached, _⟩
    have number2 : (u.itable ip).inum = i := by
      rw [(steady'.2 ip (by rw [Pi.add_apply]; omega)).1, (steady.2 ip own).1, num]
    have where2 := steady_inum steady'
    rw [← where2] at aim dir folder
    have tree2' : nodes u = relinked N i ((N i).nlink + 1) := tree2.trans (tree1.trans tree)
    have prev : Steady (h + one ip) s u := steady_trans steady (steady_mono steady' (le_counted _ _))
    have reach := slot_inside shape' (by rw [prev.1, size]) (tree2.trans tree1) rfl (tree1 ▸ folder) name
    apply get_then
    rw [number2]
    apply ends_step (books_dirlink kept' cached name i reach
      (books_unlinked kept' cached.1 (by rw [tree2]; exact type_of_dir folder)))
      (fun msg panic text => absurd text (link_panic panic))
    rintro r v ⟨_, kept3, steady3, ⟨rfl, ⟨tree3, disk3⟩, _⟩ | ⟨rfl, absent, k, near, empty, tree3⟩⟩
    · apply ends_ite
      · intro _
        rw [← zero_add (one dp)] at kept3
        apply ends_step (unchanged_iunlockput kept3) (untyped_other (by decide))
        rintro _ x ⟨kept4, steady4, tree4, disk4⟩
        rw [add_zero] at steady4
        have after : Steady (h + one ip) s x :=
          steady_trans prev (steady_trans (steady_mono steady3 (le_counted _ _)) steady4)
        apply ends_mono (linkBad_spec kept4 (((after.2 ip own).1).trans num)
          (tree4.trans (tree3.trans tree2')) live unlinked)
        · rintro _ y ⟨kept5, steady5, back, disk5⟩
          rw [disk4, disk3, disk2, disk1, after.1] at disk5
          exact ⟨kept5, steady_trans (steady_mono after (le_counted h _)) steady5, fun _ => disk5, .inl back⟩
        intro msg other text
        exact absurd text other
      intro pos
      exact absurd (by decide) pos
    apply ends_ite
    · intro negative
      exact absurd negative (by decide)
    intro _
    rw [← zero_add (one dp)] at kept3
    apply ends_step (books_iunlockput_work kept3) (untyped_other (by decide))
    rintro _ x ⟨kept4, tree4, steady4⟩
    rw [add_zero] at steady4
    have after : Steady (h + one ip) s x :=
      steady_trans prev (steady_trans (steady_mono steady3 (le_counted _ _)) steady4)
    have number4 : (x.itable ip).inum = i := ((after.2 ip own).1).trans num
    have lt : i < n := by
      rw [← num, ← size]
      exact books.bounded ip (ref_pos books (.inl own))
    rw [tree2', Nat.mod_eq_of_lt (by omega)] at tree3
    rw [tree2', slot_shape same] at absent
    rw [tree2', (same _).2.1, (same _).2.2] at empty
    rw [tree2', (same _).2.1] at near
    have free := room _ _ aim absent
    have borrowed : Books x h (0 + one ip) := by
      apply books_unsettle kept4
      rw [number4, tree4, tree3, withEnt_nlink, relinked, update_self]
      intro bare
      exact absurd (int16_wrap bare) free
    apply ends_step (books_iput_work borrowed) (fun _ => False.elim)
    rintro _ y ⟨kept5, tree5, steady5⟩
    refine ends_pure ⟨kept5, steady_trans (steady_mono after (le_counted h _)) steady5,
      fun never => absurd never (by decide), .inr ⟨_, name, k, aim, absent, dir, vacant_of shape dir near empty, ?_⟩⟩
    rw [tree5, tree4, tree3]
  intro msg climbs text
  have found := climbs text
  rw [tree] at found
  exact (climbs_shape same _ _ _).mp found

theorem resolve_live (shape : Shape n (nodes s)) (books : Books s h w) {cwd : Ip} (mine : 0 < h cwd)
    {path : List UInt8} {parent : Bool} {j : Nat} {name : List UInt8}
    (found : resolve (nodes s) (s.itable cwd).inum path parent = some (j, name))
    (free : (nodes s j).type = 0) : PathClimbs (nodes s) (s.itable cwd).inum path parent := by
  by_contra level
  exact walk_live shape (start_live shape books mine path) level found free

theorem books_namei (shape : Shape n (nodes s)) (size : s.sb.ninodes = n) (books : Books s h 0)
    {cwd : Ip} (mine : 0 < h cwd) (path : List UInt8) {A : Type} {none' : M A} {rest : Ip → M A}
    {good : A → Fs → Prop} {bad : String → Prop}
    (tolerant : ∀ msg, (msg = "ilock: no type" → PathClimbs (nodes s) (s.itable cwd).inum path false) →
      bad msg)
    (missing : ∀ t, Books t h 0 → Steady h s t → Unchanged s t → Ends none' t good bad)
    (next : ∀ ip t, Books t h (one ip) → Steady h s t → Unchanged s t → Cached t ip →
      (∃ last, resolve (nodes s) (s.itable cwd).inum path false = some ((t.itable ip).inum, last)) →
      (nodes s (t.itable ip).inum).type ≠ 0 → Ends (rest ip) t good bad) :
    Ends (do
      match ← namei cwd path with
      | none => none'
      | some ip => do
        ilock ip
        rest ip) s good bad := by
  have found : Ends (namei cwd path) s (fun r t => Steady h s t ∧ Unchanged s t ∧ ((r = none ∧ Books t h 0) ∨
        ∃ ip, r = some ip ∧ Books t h (one ip) ∧
          ∃ last, resolve (nodes s) (s.itable cwd).inum path false =
            some ((t.itable ip).inum, last))) bad := by
    apply ends_step (namex_spec shape size books mine path false) tolerant
    rintro r t ⟨steady, disk, same, ⟨rfl, _, kept⟩ | ⟨ip, name, rfl, aim, kept⟩⟩
    · exact ends_pure ⟨steady, ⟨same, disk⟩, .inl ⟨rfl, kept⟩⟩
    · exact ends_pure ⟨steady, ⟨same, disk⟩, .inr ⟨ip, rfl, kept, name, aim⟩⟩
  apply ends_bind found
  rintro r t ⟨steady, same, ⟨rfl, kept⟩ | ⟨ip, rfl, kept, last, aim⟩⟩
  · exact missing t kept steady same
  apply ends_step (unchanged_ilock kept (.inr (one_pos _))) _
  · rintro _ u ⟨kept', steady', same', cached, live⟩
    have num := steady_inum steady'
    rw [same.1, ← num] at live
    exact next ip u kept' (steady_trans steady (steady_mono steady' (le_counted h _)))
      (unchanged_trans same same') cached ⟨last, num ▸ aim⟩ live
  intro msg free
  apply tolerant
  intro text
  have gone := free text
  rw [same.1] at gone
  exact resolve_live shape books mine aim gone

theorem sysLink_spec (shape : Shape n (nodes s)) (size : s.sb.ninodes = n) (small : n ≤ 0x10000)
    (books : Books s h 0) {cwd : Ip} (mine : 0 < h cwd) (old new : List UInt8)
    (room : ∀ i last d name, resolve (nodes s) (s.itable cwd).inum old false = some (i, last) →
      (nodes s i).type ≠ tDir → resolve (nodes s) (s.itable cwd).inum new true = some (d, name) →
      (nodes s d).slot name = none → (nodes s i).nlink ≠ -1) : Ends (sysLink cwd (some old) (some new)) s
      (fun r t => Books t h 0 ∧ Steady h s t ∧ (r = -1 → t.disk = s.disk) ∧
        (nodes t = nodes s ∨ Linked (nodes s) (s.itable cwd).inum old new (nodes t)))
      (UntypedIf (PathClimbs (nodes s) (s.itable cwd).inum old false ∨ PathClimbs (nodes s) (s.itable cwd).inum
        new true)) := by
  apply books_namei shape size books mine old (fun msg climbs text => .inl (climbs text))
  · intro t kept steady same
    exact ends_pure ⟨kept, steady, fun _ => same.2, .inl same.1⟩
  rintro ip t kept steady ⟨same, disk⟩ cached ⟨last, aim⟩ live
  have type := type_cached kept cached
  rw [same] at type
  apply get_then
  rw [type]
  apply ends_ite
  · intro _
    rw [← zero_add (one ip)] at kept
    apply ends_step (unchanged_iunlockput kept) (untyped_other (by decide))
    rintro _ u ⟨kept', steady', same'⟩
    exact ends_pure ⟨kept', steady_trans steady steady', fun _ => same'.2.trans disk, .inl (same'.1.trans same)⟩
  intro file
  have unlinked : (nodes s (t.itable ip).inum).nlink = 0 → 0 < h ip := by
    have bare := books_unlinked kept cached.1 (by rw [same]; exact live)
    rwa [same] at bare
  have own := add_one_pos h ip
  have settled : Books t (h + one ip) 0 :=
    books_settle (by rwa [zero_add]) (by rw [same]; exact live)
  apply books_relink settled cached _ rfl rfl rfl (fun _ => own)
  intro u kept' steady' _ tree _ _ disk'
  rw [add_zero] at steady'
  have value : (t.itable ip).dn.nlink = (nodes s (t.itable ip).inum).nlink := by
    rw [← nlink_cached kept cached, same]
  have tree' : nodes u = relinked (nodes s) (t.itable ip).inum
      ((nodes s (t.itable ip).inum).nlink + 1) := by
    rw [tree, same, ← value]
    rfl
  have prev : Steady h s u := steady_trans steady (steady_mono steady' (le_counted h _))
  apply ends_step (ends_and (books_iunlock kept' ip) (iunlock_disk u ip))
    (fun msg text other => absurd (text.1.symm.trans other) (by decide))
  rintro _ v ⟨⟨kept'', same'', steady''⟩, disk''⟩
  rw [add_zero] at steady''
  have after : Steady h s v := steady_trans prev (steady_mono steady'' (le_counted h _))
  have start := (after.2 cwd mine).1
  have spec := linkNew_spec shape (after.1 ▸ size) small kept'' mine
    (((steady''.2 ip own).1).trans (steady'.2 ip own).1) (same''.trans tree') live unlinked new
    (by
      rw [start]
      intro d name found absent
      exact room _ last d name aim file found absent)
  rw [start] at spec
  apply ends_mono spec _ (fun msg climbs text => .inr (climbs text))
  rintro r x ⟨kept3, steady3, disk3, new⟩
  have fails : r = -1 → x.disk = s.disk := by
    intro failed
    have copy : (t.itable ip).dn = getDinode s.sb s.disk (t.itable ip).inum := by
      rw [← kept.sync ip cached, steady.1, disk]
    rw [disk3 failed, disk'', disk', after.1, steady.1, disk, getDinode_putDinode,
      update_self, putDinode_putDinode, ← value, copy]
    exact putDinode_getDinode s.sb s.disk _
  rcases new with back | ⟨d, name, k, found, absent, dir, vacant, new'⟩
  · exact ⟨kept3, steady_trans after steady3, fails, .inl back⟩
  exact ⟨kept3, steady_trans after steady3, fails, .inr ⟨_, d, name, k, ⟨last, aim⟩, live, file,
    found, absent, dir, vacant, new'⟩⟩

end

end Xv6Fs
