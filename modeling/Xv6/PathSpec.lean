import Xv6.EntrySpec

/- Path walks: what namex finds, and where it can meet a free inode. -/
namespace Xv6Fs
open Xv6 Bytes Outcome Ownership

/- The walk over the tree. -/
section
variable {n : Nat} {N N' : Nodes} {parent : Bool}
variable {name : List UInt8} {fuel : Nat} {path : List UInt8}

theorem slot_shape (same : SameShape N N') (i : Nat) (name : List UInt8) : (N' i).slot name = (N i).slot name := by
  unfold Node.slot
  rw [(same i).2.1, (same i).2.2]

theorem lookup_shape (same : SameShape N N') (i : Nat) (name : List UInt8) :
    (N' i).lookup name = (N i).lookup name := by
  unfold Node.lookup
  rw [slot_shape same, (same i).2.2]

theorem orphan_shape (same : SameShape N N') (i : Nat) : Orphan N' i ↔ Orphan N i := by
  unfold Orphan
  simp only [shape_names same]

theorem walk_shape (same : SameShape N N') (fuel : Nat) (path : List UInt8) (i : Nat) :
    walk N' parent fuel path i = walk N parent fuel path i := by
  induction fuel generalizing path i with
  | zero => rfl
  | succ fuel ih =>
    unfold walk
    simp only [(same i).1, lookup_shape same, ih]

theorem climbs_shape (same : SameShape N N') (fuel : Nat) (path : List UInt8) (i : Nat) :
    Climbs N' parent fuel path i ↔ Climbs N parent fuel path i := by
  induction fuel generalizing path i with
  | zero => rfl
  | succ fuel ih =>
    unfold Climbs
    simp only [(same i).1, lookup_shape same, orphan_shape same, ih]

theorem lookup_slot {v : Node} {k : Nat} (found : v.slot name = some k) : v.lookup name = some (v.ent k).1 := by
  rw [Node.lookup, found]
  rfl

theorem lookup_none {v : Node} : v.lookup name = none ↔ v.slot name = none := by
  rw [Node.lookup, Option.map_eq_none_iff]

theorem lookup_some {v : Node} {j : Nat} (found : v.lookup name = some j) :
    ∃ k, v.slot name = some k ∧ (v.ent k).1 = j := Option.map_eq_some_iff.mp found

theorem walk_live (shape : Shape n N) {i j : Nat} (live : (N i).type ≠ 0) (steady : ¬ Climbs N parent fuel path i)
    (found : walk N parent fuel path i = some (j, name)) : (N j).type ≠ 0 := by
  induction fuel generalizing path i with
  | zero => cases found
  | succ fuel ih =>
    unfold walk at found
    unfold Climbs at steady
    cases element : skipelem path with
    | none =>
      rw [element] at found
      simp only at found
      split at found
      · cases found
      obtain ⟨rfl, _⟩ := Prod.mk.inj (Option.some.inj found)
      exact live
    | some pair =>
      rw [element] at found steady
      simp only at found steady
      split at found
      · cases found
      rename_i dir
      rw [not_not] at dir
      split at found
      · obtain ⟨rfl, _⟩ := Prod.mk.inj (Option.some.inj found)
        exact live
      rename_i further
      cases next : (N i).lookup pair.1 with
      | none =>
        rw [next] at found
        cases found
      | some x =>
        rw [next] at found
        obtain ⟨k, slot, rfl⟩ := lookup_some next
        have alive : (N ((N i).ent k).1).type ≠ 0 := by
          rcases (slot_live shape dir slot).2 with good | climbs
          · exact good
          · exact absurd ⟨dir, further, .inl climbs⟩ steady
        refine ih alive (fun climbs => ?_) found
        exact steady ⟨dir, further, .inr ⟨_, next, climbs⟩⟩

theorem climbs_full {i : Nat} (climbs : Climbs N true fuel path i) : Climbs N false fuel path i := by
  induction fuel generalizing path i with
  | zero => exact climbs
  | succ fuel ih =>
    unfold Climbs at climbs ⊢
    cases element : skipelem path with
    | none =>
      rw [element] at climbs
      exact climbs
    | some pair =>
      rw [element] at climbs
      obtain ⟨dir, _, cause⟩ := climbs
      refine ⟨dir, fun never => Bool.false_ne_true never.1, ?_⟩
      rcases cause with removed | ⟨j, found, further⟩
      · exact .inl removed
      · exact .inr ⟨j, found, ih further⟩

theorem climbs_last {i d : Nat} (found : walk N true fuel path i = some (d, name)) (removed : Orphan N d)
    (up : cname name = dotdot) : Climbs N false fuel path i := by
  induction fuel generalizing path i with
  | zero => cases found
  | succ fuel ih =>
    unfold walk at found
    unfold Climbs
    cases element : skipelem path with
    | none =>
      rw [element] at found
      cases found
    | some pair =>
      rw [element] at found
      simp only at found
      split at found
      · cases found
      rename_i dir
      rw [not_not] at dir
      refine ⟨dir, fun never => Bool.false_ne_true never.1, ?_⟩
      split at found
      · obtain ⟨rfl, rfl⟩ := Prod.mk.inj (Option.some.inj found)
        exact .inl ⟨removed, up⟩
      split at found
      · cases found
      rename_i j next
      exact .inr ⟨j, next, ih found⟩

theorem walk_parent {i j : Nat} (found : walk N true fuel path i = some (j, name)) : (N j).type = tDir := by
  induction fuel generalizing path i with
  | zero => cases found
  | succ fuel ih =>
    unfold walk at found
    split at found
    · cases found
    split at found
    · cases found
    rename_i dir
    rw [not_not] at dir
    split at found
    · obtain ⟨rfl, _⟩ := Prod.mk.inj (Option.some.inj found)
      exact dir
    split at found
    · cases found
    · exact ih found

end

section
variable {s : Fs} {h w : Ip → Nat} {n : Nat} {N : Nodes}
variable {ip : Ip} {path : List UInt8} {cwd : Ip}

theorem le_counted (h w : Ip → Nat) : h ≤ h + w := fun _ => Nat.le_add_right _ _

theorem type_cached (books : Books s h w) (cached : Cached s ip) :
    (s.itable ip).dn.type = (nodes s (s.itable ip).inum).type := by
  rw [node_cached books cached, nodeOf_type]

theorem books_iunlockput_work (books : Books s h (w + one ip)) :
    Ends (iunlockput ip) s (fun _ t => Books t h w ∧ nodes t = nodes s ∧ Steady (h + w) s t)
      (fun msg => msg = "iunlock") := by
  apply ends_bind (books_iunlock books ip)
  rintro _ t ⟨kept, same, steady⟩
  apply ends_mono (books_iput_work kept) _ (fun _ => False.elim)
  rintro _ u ⟨kept', same', steady'⟩
  refine ⟨kept', same'.trans same, steady_trans (steady_mono steady ?_) steady'⟩
  intro jp
  simp only [Pi.add_apply]
  omega

theorem iunlockput_disk (books : Books s h (w + one ip)) :
    Ends (iunlockput ip) s (fun _ t => t.disk = s.disk) (fun _ => True) := by
  apply ends_step (ends_and (books_iunlock books ip) (iunlock_disk s ip)) (fun _ _ => trivial)
  rintro _ t ⟨⟨kept, _, _⟩, disk⟩
  apply ends_better (iput_disk kept) _
  intro _ u disk'
  exact disk'.trans disk

theorem unchanged_iunlockput (books : Books s h (w + one ip)) :
    Ends (iunlockput ip) s (fun _ t => Books t h w ∧ Steady (h + w) s t ∧ Unchanged s t)
      (fun msg => msg = "iunlock") := by
  apply ends_mono (ends_and (books_iunlockput_work books) (iunlockput_disk books)) _ (fun _ => And.left)
  rintro _ t ⟨⟨kept, same, steady⟩, disk⟩
  exact ⟨kept, steady, same, disk⟩

theorem unchanged_ilock (books : Books s h w) (held : 0 < h ip ∨ 0 < w ip) : Ends (ilock ip) s
      (fun _ t => Books t h w ∧ Steady (h + w) s t ∧ Unchanged s t ∧ Cached t ip ∧
        (nodes s (s.itable ip).inum).type ≠ 0) (UntypedIf ((nodes s (s.itable ip).inum).type = 0)) := by
  apply ends_mono (ends_and (books_ilock books held) (ilock_disk s ip)) _ (fun _ => And.left)
  rintro _ t ⟨⟨kept, same, steady, rest⟩, disk⟩
  exact ⟨kept, steady, ⟨same, disk⟩, rest⟩

theorem slot_inside {n i : Nat} {N : Nodes} {t : Fs} (shape : Shape n N) (size : t.sb.ninodes = n)
    (tree : nodes t = N) (here : (t.itable ip).inum = i) (dir : (N i).type = tDir) (name : List UInt8) (k : Nat)
    (slot : (nodes t (t.itable ip).inum).slot name = some k) :
    ((nodes t (t.itable ip).inum).ent k).1 < t.sb.ninodes := by
  rw [tree, here] at slot ⊢
  rw [size]
  exact (slot_live shape dir slot).1

def Found (N : Nodes) (h : Ip → Nat) (aim : Option (Nat × List UInt8))
    (r : Option (Ip × List UInt8)) (t : Fs) : Prop :=
  nodes t = N ∧ ((r = none ∧ aim = none ∧ Books t h 0) ∨
    ∃ jp name, r = some (jp, name) ∧ aim = some ((t.itable jp).inum, name) ∧ Books t h (one jp))

theorem namexFrom_spec (shape : Shape n N) (parent : Bool) {fuel : Nat} (enough : path.length < fuel)
    (books : Books s h (one ip)) (same : nodes s = N) (size : s.sb.ninodes = n) : Ends (namexFrom parent fuel path ip) s
      (fun r t => Steady h s t ∧ t.disk = s.disk ∧ Found N h (walk N parent fuel path (s.itable ip).inum) r t)
      (UntypedIf ((N (s.itable ip).inum).type = 0 ∨ Climbs N parent fuel path (s.itable ip).inum)) := by
  induction fuel generalizing s path ip with
  | zero => omega
  | succ fuel ih =>
    have mine : Books s h (0 + one ip) := by rwa [zero_add]
    unfold namexFrom walk Climbs
    cases element : skipelem path with
    | none =>
      cases parent with
      | true =>
        apply ends_step (ends_and (books_iput_work mine) (iput_disk mine))
          (fun _ never => never.1.elim)
        rintro _ t ⟨⟨kept, unchanged, steady⟩, disk⟩
        exact ends_pure ⟨steady, disk, unchanged.trans same, .inl ⟨rfl, rfl, kept⟩⟩
      | false =>
        exact ends_pure ⟨steady_refl h s, rfl, same, .inr ⟨ip, [], rfl, rfl, books⟩⟩
    | some pair =>
      obtain ⟨name, rest⟩ := pair
      have shorter := skipelem_shorter element
      apply ends_step (ends_and (books_ilock books (.inr (one_pos _)))
        (ilock_disk s ip)) (fun msg free text => .inl (same ▸ free.1 text))
      rintro _ t ⟨⟨kept, unchanged, steady, cached, live⟩, disk⟩
      have here := steady_inum steady
      have tree' : nodes t = N := unchanged.trans same
      have type := type_cached kept cached
      rw [here, tree'] at type
      have prev : Steady h s t := steady_mono steady (le_counted h _)
      have mine' : Books t h (0 + one ip) := by rwa [zero_add]
      apply get_then
      rw [type]
      apply ends_ite
      · intro file
        apply ends_step (ends_and (books_iunlockput_work mine') (iunlockput_disk mine'))
          (fun msg text => fun other => absurd (text.1.symm.trans other) (by decide))
        rintro _ u ⟨⟨kept', unchanged', steady'⟩, disk'⟩
        refine ends_pure ⟨steady_trans prev steady', disk'.trans disk, unchanged'.trans tree', .inl ⟨rfl, ?_, kept'⟩⟩
        simp only [if_pos file]
      intro dir
      simp only [if_neg dir]
      rw [not_not] at dir
      apply ends_ite
      · intro last
        apply ends_step (ends_and (books_iunlock kept ip) (iunlock_disk t ip))
          (fun msg text => fun other => absurd (text.1.symm.trans other) (by decide))
        rintro _ u ⟨⟨kept', unchanged', steady'⟩, disk'⟩
        have there : (u.itable ip).inum = (s.itable ip).inum :=
          (steady_inum steady').trans here
        refine ends_pure ⟨steady_trans prev (steady_mono steady' (le_counted h _)),
          disk'.trans disk, unchanged'.trans tree', .inr ⟨ip, name, rfl, ?_, kept'⟩⟩
        rw [if_pos last, there]
      intro further
      simp only [if_neg further]
      have reach := slot_inside shape (by rw [steady.1, size]) tree' here dir name
      apply ends_step (ends_and (books_dirlookup kept cached name reach)
        (dirlookup_disk kept cached name)) (fun msg mem text => absurd (text ▸ mem.1.1) (by decide))
      rw [here, tree']
      rintro r u ⟨⟨_, ⟨rfl, rfl, absent⟩ | ⟨jp, k, rfl, slot, kept', unchanged', steady', named⟩⟩, disk'⟩
      · apply ends_step (ends_and (books_iunlockput_work mine') (iunlockput_disk mine'))
          (fun msg text => fun other => absurd (text.1.symm.trans other) (by decide))
        rintro _ v ⟨⟨kept', unchanged', steady'⟩, disk''⟩
        refine ends_pure ⟨steady_trans prev steady', disk''.trans disk, unchanged'.trans tree', .inl ⟨rfl, ?_, kept'⟩⟩
        rw [lookup_none.mpr absent]
      rw [add_comm] at kept'
      apply ends_step (ends_and (books_iunlockput_work kept') (iunlockput_disk kept'))
        (fun msg text => fun other => absurd (text.1.symm.trans other) (by decide))
      rintro _ v ⟨⟨kept'', unchanged'', steady''⟩, disk''⟩
      have there : (v.itable jp).inum = ((N (s.itable ip).inum).ent k).1 :=
        (steady_inum steady'').trans named
      have found := lookup_slot slot
      have after : Steady h s v := steady_trans prev (steady_trans
        (steady_mono steady' (le_counted h _)) (steady_mono steady'' (le_counted h _)))
      apply ends_mono (ih (by omega) kept''
        (unchanged''.trans unchanged') (after.1 ▸ size))
      · rintro r x ⟨last, disk3, ended⟩
        rw [found]
        rw [there] at ended
        exact ⟨steady_trans after last, disk3.trans (disk''.trans (disk'.trans disk)), ended⟩
      intro msg cause text
      right
      refine ⟨dir, further, ?_⟩
      rw [there] at cause
      rcases cause text with free | climbs
      · left
        exact (slot_live shape dir slot).2.resolve_left (not_not.mpr free)
      · exact .inr ⟨_, found, climbs⟩

theorem pathStart_root {cwd : Nat} (absolute : path.head? = some slash) :
    pathStart cwd path = rootIno := if_pos absolute

theorem pathStart_cwd {cwd : Nat} (relative : path.head? ≠ some slash) : pathStart cwd path = cwd := if_neg relative

theorem start_live (shape : Shape n (nodes s)) (books : Books s h w) (mine : 0 < h cwd)
    (path : List UInt8) : (nodes s (pathStart (s.itable cwd).inum path)).type ≠ 0 := by
  by_cases absolute : path.head? = some slash
  · rw [pathStart_root absolute]
    exact type_of_dir shape.root
  rw [pathStart_cwd absolute, nodes_type s (books.bounded cwd (ref_pos books (.inl mine)))]
  exact books.held cwd mine

theorem namexStart_spec (shape : Shape n (nodes s)) (size : s.sb.ninodes = n) (books : Books s h 0)
    (mine : 0 < h cwd) (path : List UInt8) : Ends (namexStart cwd path) s
      (fun ip t => Books t h (one ip) ∧ nodes t = nodes s ∧ Steady h s t ∧ t.disk = s.disk ∧
        (t.itable ip).inum = pathStart (s.itable cwd).inum path)
      (fun msg => msg = "iget: no inodes" ∧ ∀ jp, (s.itable jp).ref ≠ 0) := by
  unfold namexStart
  apply ends_ite
  · intro absolute
    have lt : rootIno < s.sb.ninodes := by
      rw [size]
      exact inside_of_type shape.bound (type_of_dir shape.root)
    apply ends_mono (ends_and (books_iget books lt) (iget_spec s rootIno)) _ (fun _ => And.right)
    rintro ip t ⟨⟨kept, same, steady, num⟩, _, _, rfl⟩
    rw [zero_add] at kept
    rw [add_zero] at steady
    rw [pathStart_root absolute]
    exact ⟨kept, same, steady, rfl, num⟩
  intro relative
  apply ends_mono (ends_and (books_idup books (.inl mine)) (idup_disk s cwd)) _
    (fun _ never => never.1.elim)
  rintro ip t ⟨⟨rfl, kept, same, steady, num⟩, disk⟩
  rw [zero_add] at kept
  rw [add_zero] at steady
  rw [pathStart_cwd relative]
  exact ⟨kept, same, steady, disk, num⟩

theorem namex_spec (shape : Shape n (nodes s)) (size : s.sb.ninodes = n) (books : Books s h 0)
    (mine : 0 < h cwd) (path : List UInt8) (parent : Bool) : Ends (namex cwd path parent) s
      (fun r t => Steady h s t ∧ t.disk = s.disk ∧
        Found (nodes s) h (resolve (nodes s) (s.itable cwd).inum path parent) r t)
      (UntypedIf (PathClimbs (nodes s) (s.itable cwd).inum path parent)) := by
  apply ends_step (namexStart_spec shape size books mine path)
    (fun msg text other => absurd (text.1.symm.trans other) (by decide))
  rintro ip t ⟨kept, same, steady, disk, num⟩
  apply ends_mono (namexFrom_spec shape parent (Nat.lt_succ_self _) kept same (steady.1 ▸ size))
  · rintro r u ⟨steady', disk', found⟩
    rw [num] at found
    exact ⟨steady_trans steady steady', disk'.trans disk, found⟩
  intro msg cause text
  rw [num] at cause
  exact (cause text).resolve_left (start_live shape books mine path)

/- The inode numbers that dirlookup returns during namex. -/

/-- In namex's loop, entered at ip in state s, a dirlookup returns inode j in state t. -/
inductive LooksFrom (parent : Bool) : Nat → List UInt8 → Ip → Fs → Nat → Fs → Prop where
  | here {fuel off : Nat} {path name rest : List UInt8} {ip next : Ip} {s t u : Fs}
      (element : skipelem path = some (name, rest)) (lock : ilock ip s = .ok ((), t))
      (directory : (t.itable ip).dn.type = tDir) (further : ¬ (parent ∧ rest = []))
      (lookup : dirlookup ip name t = .ok (some (next, off), u)) :
      LooksFrom parent (fuel + 1) path ip s (u.itable next).inum u
  | later {fuel off j : Nat} {path name rest : List UInt8} {ip next : Ip} {s t u v x : Fs}
      (element : skipelem path = some (name, rest)) (lock : ilock ip s = .ok ((), t))
      (directory : (t.itable ip).dn.type = tDir) (further : ¬ (parent ∧ rest = []))
      (lookup : dirlookup ip name t = .ok (some (next, off), u))
      (unlock : iunlockput ip u = .ok ((), v)) (looks : LooksFrom parent fuel rest next v j x) :
      LooksFrom parent (fuel + 1) path ip s j x

/-- During namex a dirlookup returns inode j, in state t. -/
def Looks (s : Fs) (cwd : Ip) (path : List UInt8) (parent : Bool) (j : Nat) (t : Fs) : Prop :=
  ∃ ip u, namexStart cwd path s = .ok (ip, u) ∧ LooksFrom parent (path.length + 1) path ip u j t

theorem turn_spec (shape : Shape n N) {ip next : Ip} {t u : Fs} {name : List UInt8} {off : Nat}
    (books : Books s h (one ip)) (same : nodes s = N) (size : s.sb.ninodes = n)
    (lock : ilock ip s = .ok ((), t)) (dir : (t.itable ip).dn.type = tDir)
    (lookup : dirlookup ip name t = .ok (some (next, off), u)) :
    Books u h (one next + one ip) ∧ nodes u = N ∧ u.sb = s.sb ∧ (N (s.itable ip).inum).type = tDir ∧
      ∃ k, (N (s.itable ip).inum).slot name = some k ∧ (u.itable next).inum = ((N (s.itable ip).inum).ent k).1 := by
  obtain ⟨kept, unchanged, steady, cached, _⟩ := ends_ok (books_ilock books (.inr (one_pos _))) lock
  have here := steady_inum steady
  have tree' : nodes t = N := unchanged.trans same
  have folder : (N (s.itable ip).inum).type = tDir := by
    rw [← dir, type_cached kept cached, here, tree']
  have reach := slot_inside shape (by rw [steady.1, size]) tree' here folder name
  obtain ⟨_, ⟨missing, _⟩ | ⟨jp, k, found, slot, kept', unchanged', steady', named⟩⟩ :=
    ends_ok (books_dirlookup kept cached name reach) lookup
  · cases missing
  obtain ⟨rfl, _⟩ := Prod.mk.inj (Option.some.inj found)
  rw [here, tree'] at slot named
  rw [add_comm] at kept'
  exact ⟨kept', unchanged'.trans tree', steady'.1.trans steady.1, folder, k, slot, named⟩

theorem looksFrom_live (shape : Shape n N) {parent : Bool} {fuel : Nat} {j : Nat} {x : Fs}
    (looks : LooksFrom parent fuel path ip s j x) (books : Books s h (one ip)) (same : nodes s = N)
    (size : s.sb.ninodes = n) (level : ¬ Climbs N parent fuel path (s.itable ip).inum) :
    (getDinode x.sb x.disk j).type ≠ 0 := by
  induction looks with
  | here element lock dir further lookup =>
    obtain ⟨kept, tree', sb, folder, k, slot, named⟩ := turn_spec shape books same size lock dir lookup
    obtain ⟨inside, live | climbs⟩ := slot_live shape folder slot
    · rw [named, ← books_view kept, ← nodes_type _ (by rw [sb, size]; exact inside), tree']
      exact live
    unfold Climbs at level
    rw [element] at level
    exact absurd ⟨folder, further, .inl climbs⟩ level
  | later element lock dir further lookup unlock looks ih =>
    obtain ⟨kept, tree', sb, folder, k, slot, named⟩ := turn_spec shape books same size lock dir lookup
    obtain ⟨kept', unchanged, steady⟩ := ends_ok (books_iunlockput_work kept) unlock
    apply ih kept' (unchanged.trans tree') (by rw [steady.1, sb, size])
    intro climbs
    rw [steady_inum steady, named] at climbs
    unfold Climbs at level
    rw [element] at level
    exact level ⟨folder, further, .inr ⟨_, lookup_slot slot, climbs⟩⟩

theorem looks_live (shape : Shape n (nodes s)) (size : s.sb.ninodes = n)
    (books : Books s h 0) (mine : 0 < h cwd) {parent : Bool} {j : Nat}
    {t : Fs} (level : ¬ PathClimbs (nodes s) (s.itable cwd).inum path parent)
    (looks : Looks s cwd path parent j t) : (getDinode t.sb t.disk j).type ≠ 0 := by
  obtain ⟨ip, u, start, looks⟩ := looks
  obtain ⟨kept, same, steady, _, num⟩ := ends_ok (namexStart_spec shape size books mine path) start
  apply looksFrom_live shape looks kept same (steady.1 ▸ size)
  rw [num]
  exact level

end

end Xv6Fs
