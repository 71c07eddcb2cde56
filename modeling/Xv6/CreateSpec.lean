import Xv6.PathSpec

/- create: a new name in the directory that the path leads to, or the inode it has there. -/
namespace Xv6Fs
open Xv6 Bytes Outcome Ownership Function

def Node.newDir (i d : Nat) : Node := ((Node.blank tDir 1).setEnt 0 (i, dot)).setEnt 1 (d, dotdot)

def dotted (N : Nodes) (d i : Nat) (type : UInt16) : Nodes :=
  if type = tDir then
    Function.update (Function.update N d ((N d).setNlink ((N d).nlink + 1))) i (.newDir i d)
  else N

def made (N : Nodes) (d k i : Nat) (type : UInt16) (name : List UInt8) : Nodes :=
  withEnt (dotted (Function.update N i (.blank type 1)) d i type) d k (i, name)

theorem cname_dot : cname dot = dot := by decide

theorem cname_dotdot : cname dotdot = dotdot := by decide

theorem link_panic {msg : String} (panic : msg ∈ linkPanics ∨ msg = "balloc: out of blocks") :
    msg ≠ "ilock: no type" := by
  rintro rfl
  revert panic
  decide

section
variable {s : Fs} {h w : Ip → Nat} {n : Nat}
variable {type : UInt16}

theorem books_dirlink_new {ip : Ip} (books : Books s h w) (cached : Cached s ip) (name : List UInt8)
    (inum : Nat) (small : inum < 0x10000) (absent : (nodes s (s.itable ip).inum).slot name = none)
    (linked : (nodes s (s.itable ip).inum).nlink = 0 → 0 < h ip) : Ends (dirlink ip name inum) s
      (fun r t => r = 0 ∧ (nodes s (s.itable ip).inum).type = tDir ∧ Books t h w ∧
        Steady (h + w) s t ∧ ∃ k, k ≤ (nodes s (s.itable ip).inum).count ∧
          (k < (nodes s (s.itable ip).inum).count → ((nodes s (s.itable ip).inum).ent k).1 = 0) ∧
          nodes t = withEnt (nodes s) (s.itable ip).inum k (inum, cname name)) (UntypedIf False) := by
  apply ends_mono (books_dirlink books cached name inum (by rw [absent]; intro k never; cases never)
    linked) _ (fun msg => link_panic)
  rintro r t ⟨dir, kept, steady, ⟨_, _, present⟩ | ⟨rfl, _, k, near, empty, tree⟩⟩
  · exact absurd absent present
  rw [Nat.mod_eq_of_lt small] at tree
  exact ⟨rfl, dir, kept, steady, k, near, empty, tree⟩

theorem nlink_cached {ip : Ip} (books : Books s h w) (cached : Cached s ip) :
    (nodes s (s.itable ip).inum).nlink = (s.itable ip).dn.nlink := by
  rw [node_cached books cached, nodeOf, if_neg (books.live ip cached)]

theorem slot_blank (type : UInt16) (nlink : Int16) (name : List UInt8) : (Node.blank type nlink).slot name = none := rfl

theorem slot_dot (i : Nat) (nlink : Int16) : ((Node.blank tDir nlink).setEnt 0 (i, dot)).slot dotdot = none := by
  have other : dot ≠ cname dotdot := by decide
  simp [Node.slot, Node.setEnt, Node.blank, other]

theorem books_createDots {dp ip : Ip} (books : Books s h w) (parent : Cached s dp) (cached : Cached s ip)
    (mine : 0 < h dp) (own : 0 < h ip) (small : s.sb.ninodes ≤ 0x10000)
    (apart : (s.itable dp).inum ≠ (s.itable ip).inum) (pos : (s.itable ip).inum ≠ 0)
    (blank : nodes s (s.itable ip).inum = .blank type 1) : Ends (createDots dp ip type) s
      (fun _ t => Books t h w ∧ Steady (h + w) s t ∧
        nodes t = dotted (nodes s) (s.itable dp).inum (s.itable ip).inum type) (UntypedIf False) := by
  apply get_then
  unfold dotted
  apply ends_ite
  · intro dir
    rw [if_pos dir]
    apply books_relink books parent _ rfl rfl rfl (fun _ => mine)
    intro t kept steady _ tree others _ _
    rw [dir] at blank
    have different : ip ≠ dp := by
      rintro rfl
      exact apart rfl
    have entry := others ip different
    have cached' : Cached t ip := by
      unfold Cached
      rw [entry]
      exact cached
    have first : nodes t (t.itable ip).inum = .blank tDir 1 := by
      rw [entry, tree, update_of_ne (Ne.symm apart), blank]
    have inside := books.bounded ip cached.1
    have above := books.bounded dp parent.1
    apply ends_bind (books_dirlink_new kept cached' dot (s.itable ip).inum (by omega)
      (by rw [first]; exact slot_blank _ _ _) (fun _ => own))
    rintro r u ⟨rfl, _, kept', steady', k, near, _, tree'⟩
    rw [first] at near
    have start : k = 0 := Nat.le_zero.mp near
    rw [start, entry, cname_dot] at tree'
    apply ends_ite
    · intro negative
      exact absurd negative (by decide)
    intro _
    have num : (u.itable ip).inum = (s.itable ip).inum := by
      rw [(steady'.2 ip (by rw [Pi.add_apply]; omega)).1, entry]
    have snd : nodes u (u.itable ip).inum = (Node.blank tDir 1).setEnt 0 ((s.itable ip).inum, dot) := by
      rw [num, tree', withEnt, update_self, ← entry, first]
    apply ends_bind (books_dirlink_new kept'
      (cached_steady kept' steady' (by rw [Pi.add_apply]; omega) (.inl own) cached') dotdot
      (s.itable dp).inum (by omega) (by rw [snd]; exact slot_dot _ _) (fun _ => own))
    rintro r v ⟨rfl, _, kept'', steady'', k, near, empty, tree''⟩
    rw [snd] at near empty
    have next : k = 1 := by
      have : k ≤ 1 := near
      by_contra other
      have zero : k = 0 := by omega
      rw [zero] at empty
      exact pos (empty (Nat.lt_succ_self 0))
    apply ends_ite
    · intro negative
      exact absurd negative (by decide)
    intro _
    refine ends_pure ⟨kept'', steady_trans steady (steady_trans steady' steady''), ?_⟩
    rw [tree'', num, next, cname_dotdot, tree', withEnt, withEnt, update_self,
      update_idem, ← entry, first, tree, nlink_cached books parent]
    rfl
  intro file
  rw [if_neg file]
  exact ends_pure ⟨books, steady_refl _ s, rfl⟩

theorem dotted_parent {N : Nodes} {d i : Nat} (type : UInt16) (apart : d ≠ i) :
    (dotted N d i type d).type = (N d).type ∧ (dotted N d i type d).count = (N d).count ∧
      (dotted N d i type d).ent = (N d).ent ∧
      (dotted N d i type d).nlink = if type = tDir then (N d).nlink + 1 else (N d).nlink := by
  unfold dotted
  split
  · rw [update_of_ne apart, update_self]
    exact ⟨rfl, rfl, rfl, rfl⟩
  · exact ⟨rfl, rfl, rfl, rfl⟩

theorem int16_wrap {v : Int16} (wrapped : v + 1 = 0) : v = -1 := by
  grind

theorem made_new {N : Nodes} {d k i : Nat} {name : List UInt8} (apart : d ≠ i) :
    (made N d k i type name i).type = type ∧ (made N d k i type name i).nlink = 1 := by
  unfold made withEnt dotted
  rw [update_of_ne (Ne.symm apart)]
  split
  · rename_i dir
    rw [update_self, dir]
    exact ⟨rfl, rfl⟩
  rw [update_self]
  exact ⟨rfl, rfl⟩

structure Returned (s : Fs) (h : Ip → Nat) (ip : Ip) (t : Fs) : Prop where
  books : Books t (h + one ip) 0
  steady : Steady h s t
  cached : Cached t ip
  linked : (nodes t (t.itable ip).inum).nlink = 0 → 0 < h ip

theorem books_createNew {dp : Ip} (books : Books s h (one dp)) (cached : Cached s dp)
    (dir : (nodes s (s.itable dp).inum).type = tDir) (name : List UInt8)
    (absent : (nodes s (s.itable dp).inum).slot name = none) (small : s.sb.ninodes ≤ 0x10000)
    (typed : type ≠ 0) (major minor : Int16) (room : type = tDir → (nodes s (s.itable dp).inum).nlink ≠ -1) :
    Ends (createNew dp name type major minor) s
      (fun r t => ∃ ip i k, r = some ip ∧ Returned s h ip t ∧ i ≠ 0 ∧ i < s.sb.ninodes ∧
        (nodes s i).type = 0 ∧ k ≤ (nodes s (s.itable dp).inum).count ∧
        (k < (nodes s (s.itable dp).inum).count → ((nodes s (s.itable dp).inum).ent k).1 = 0) ∧
        nodes t = made (nodes s) (s.itable dp).inum k i type (cname name) ∧ (t.itable ip).dn.type = type)
      (UntypedIf False) := by
  have allocated := type_of_dir dir
  have unlinked : (nodes s (s.itable dp).inum).nlink = 0 → 0 < h dp := books_unlinked books cached.1 allocated
  have settled : Books s (h + one dp) 0 := books_settle (by rwa [zero_add]) allocated
  apply books_ialloc settled typed major minor (fun _ => id)
  intro ip i t pos inside free kept steady own num tree
  have apart : (s.itable dp).inum ≠ i := by
    intro same
    rw [same] at allocated
    exact allocated free
  have mine : 0 < (h + one dp + one ip) dp := by
    simp only [Pi.add_apply, one_self]
    omega
  have here := steady_inum steady
  have parent : Cached t dp := cached_steady kept steady (add_one_pos _ _) (.inl mine) cached
  have fresh := add_one_pos (h + one dp) ip
  apply ends_bind (books_createDots kept parent own mine fresh (steady.1 ▸ small)
    (by rw [here, num]; exact apart) (by rw [num]; exact pos)
    (by rw [num, tree, update_self]))
  rintro _ u ⟨kept', steady', tree'⟩
  rw [add_zero] at steady'
  rw [here, num, tree] at tree'
  have number' : (u.itable ip).inum = i := ((steady'.2 ip fresh).1).trans num
  have here' : (u.itable dp).inum = (s.itable dp).inum := ((steady'.2 dp mine).1).trans here
  have parent' : Cached u dp := cached_steady kept' steady' mine (.inl mine) parent
  obtain ⟨_, count, ent, nlink⟩ := dotted_parent (N := update (nodes s) i (.blank type 1)) type apart
  rw [← tree', update_of_ne apart] at count ent nlink
  apply get_then
  rw [number']
  apply ends_bind (books_dirlink_new kept' parent' name i (by omega) _ (fun _ => mine))
  · rintro r v ⟨rfl, _, kept'', steady'', k, near, empty, tree''⟩
    rw [here'] at near empty tree''
    rw [count] at near empty
    rw [ent] at empty
    rw [add_zero] at steady''
    apply ends_ite
    · intro negative
      exact absurd negative (by decide)
    intro _
    have last : (v.itable dp).inum = (s.itable dp).inum := ((steady''.2 dp mine).1).trans here'
    have borrowed : Books v (h + one ip) (0 + one dp) := by
      apply books_unsettle
      · rw [add_right_comm]
        exact kept''
      rw [last, tree'', withEnt_nlink, nlink]
      intro bare
      rw [Pi.add_apply]
      split at bare
      · exact absurd (int16_wrap bare) (room ‹_›)
      have := unlinked bare
      omega
    apply ends_step (books_iunlockput_work borrowed) (untyped_other (by decide))
    rintro _ x ⟨kept3, same, steady3⟩
    rw [add_zero] at steady3
    have own' := add_one_pos h ip
    have number3 : (x.itable ip).inum = i :=
      ((steady3.2 ip own').1).trans (((steady''.2 ip fresh).1).trans number')
    have tree3 : nodes x = made (nodes s) (s.itable dp).inum k i type (cname name) := by
      rw [same, tree'', tree']
      rfl
    have later : Cached x ip := cached_steady kept3 steady3 own' (.inl own')
      (cached_steady kept'' steady'' fresh (.inl fresh)
        (cached_steady kept' steady' fresh (.inl fresh) own))
    have most : h ≤ h + one dp + one ip := (le_counted h _).trans (le_counted _ _)
    refine ends_pure ⟨ip, i, k, rfl, ⟨kept3, ?_, later, ?_⟩, pos, inside, free, near, empty, tree3, ?_⟩
    · exact steady_trans (steady_mono steady (le_counted h _)) (steady_trans
        (steady_mono steady' most) (steady_trans (steady_mono steady'' most)
          (steady_mono steady3 (le_counted h _))))
    · rw [number3, tree3, (made_new apart).2]
      intro never
      exact absurd never (by decide)
    · rw [type_cached kept3 later, number3, tree3, (made_new apart).1]
  rw [here', Node.slot, count, ent]
  exact absent

theorem vacant_of {N : Nodes} (shape : Shape n N) {d k : Nat} (dir : (N d).type = tDir)
    (near : k ≤ (N d).count) (empty : k < (N d).count → ((N d).ent k).1 = 0) : VacantSlot (N d) k := by
  obtain ⟨two, first, _, up, _⟩ := shape.dots d dir
  refine ⟨?_, near, empty⟩
  by_contra early
  rcases (by omega : k = 0 ∨ k = 1) with rfl | rfl
  · have zero := empty (by omega)
    rw [first] at zero
    simp only at zero
    rw [zero, shape.zero] at dir
    cases dir
  · exact up (empty (by omega))

def Made (n : Nat) (N : Nodes) (cwd : Nat) (path : List UInt8) (type : UInt16) (N' : Nodes) : Prop :=
  ∃ d name k i, resolve N cwd path true = some (d, name) ∧ (N d).slot name = none ∧
    (N d).type = tDir ∧ VacantSlot (N d) k ∧ i ≠ 0 ∧ i < n ∧ (N i).type = 0 ∧
    N' = made N d k i type (cname name)

theorem books_createFound {dp ip : Ip} (books : Books s h (one dp + one ip)) (type : UInt16) :
    Ends (createFound dp ip type) s (fun r t => Unchanged s t ∧ ((r = none ∧ Books t h 0 ∧ Steady h s t) ∨
        (type = tFile ∧ r = some ip ∧ Returned s h ip t))) (UntypedIf ((nodes s (s.itable ip).inum).type = 0)) := by
  rw [add_comm] at books
  apply ends_step (unchanged_iunlockput books) (untyped_other (by decide))
  rintro _ t ⟨kept, steady, same⟩
  have own := add_one_pos h ip
  have num := (steady.2 ip own).1
  apply ends_step (unchanged_ilock kept (.inr (one_pos _)))
    (fun msg free text => by rw [← num, ← same.1]; exact free text)
  rintro _ u ⟨kept', steady', same', cached, live⟩
  have number' := (steady'.2 ip own).1
  rw [num, same.1] at live
  have tree := unchanged_trans same same'
  have prev : Steady h s u := steady_trans (steady_mono steady (le_counted h _))
    (steady_mono steady' (le_counted h _))
  have live' : (nodes u (u.itable ip).inum).type ≠ 0 := by
    rw [number', num, tree.1]
    exact live
  apply get_then
  apply ends_ite
  · intro file
    refine ends_pure ⟨tree, .inr ⟨file.1, rfl, books_settle (by rwa [zero_add]) live', prev, cached, ?_⟩⟩
    exact books_unlinked kept' cached.1 live'
  intro _
  rw [← zero_add (one ip)] at kept'
  apply ends_step (unchanged_iunlockput kept') (untyped_other (by decide))
  rintro _ v ⟨kept'', steady'', same''⟩
  exact ends_pure ⟨unchanged_trans tree same'', .inl ⟨rfl, kept'', steady_trans prev steady''⟩⟩

theorem create_spec (shape : Shape n (nodes s)) (size : s.sb.ninodes = n) (small : n ≤ 0x10000)
    (books : Books s h 0) {cwd : Ip} (mine : 0 < h cwd) (path : List UInt8) (typed : type ≠ 0) (major minor : Int16)
    (room : ∀ d name, resolve (nodes s) (s.itable cwd).inum path true = some (d, name) →
      (nodes s d).slot name = none → type = tDir → (nodes s d).nlink ≠ -1) : Ends (create cwd path type major minor) s
      (fun r t => (r = none ∧ Books t h 0 ∧ Steady h s t ∧ Unchanged s t) ∨
        ∃ ip, r = some ip ∧ Returned s h ip t ∧ ((type = tFile ∧ Unchanged s t) ∨
          (Made n (nodes s) (s.itable cwd).inum path type (nodes t) ∧ (t.itable ip).dn.type = type)))
      (UntypedIf (PathClimbs (nodes s) (s.itable cwd).inum path false)) := by
  apply ends_step (namex_spec shape size books mine path true)
    (fun msg climbs text => climbs_full (climbs text))
  rintro r t ⟨steady, disk, same, ⟨rfl, _, kept⟩ | ⟨dp, name, rfl, aim, kept⟩⟩
  · exact ends_pure (.inl ⟨rfl, kept, steady, same, disk⟩)
  have dir := walk_parent aim
  apply ends_step (unchanged_ilock kept (.inr (one_pos _))) _
  · rintro _ u ⟨kept', steady', same', cached, _⟩
    have num := steady_inum steady'
    have still : Unchanged s u := unchanged_trans ⟨same, disk⟩ same'
    have tree : nodes u = nodes s := still.1
    have prev : Steady h s u := steady_trans steady (steady_mono steady' (le_counted h _))
    rw [← num] at aim dir
    have reach := slot_inside shape (by rw [prev.1, size]) tree rfl dir name
    apply ends_step (ends_and (books_dirlookup kept' cached name reach)
      (dirlookup_disk kept' cached name)) (fun msg mem text => absurd (text ▸ mem.1.1) (by decide))
    rintro r v ⟨⟨_, ⟨rfl, rfl, absent⟩ | ⟨ip, k, rfl, slot, kept'', same'', steady'', named⟩⟩, disk''⟩
    · rw [tree] at absent
      apply ends_mono (books_createNew kept' cached (by rw [tree]; exact dir) name
        (by rw [tree]; exact absent) (by rw [prev.1, size]; exact small) typed major minor
        (by rw [tree]; exact room _ _ aim absent)) _ (fun msg other text => absurd text other)
      rintro r x ⟨ip, i, k, rfl, returned, pos, inside, free, near, empty, new, kind⟩
      rw [tree] at free near empty new
      rw [prev.1, size] at inside
      refine .inr ⟨ip, rfl, ⟨returned.books, steady_trans prev returned.steady,
        returned.cached, returned.linked⟩, .inr ⟨?_, kind⟩⟩
      exact ⟨_, name, k, i, aim, absent, dir, vacant_of shape dir near empty, pos, inside, free, new⟩
    rw [tree] at slot named
    apply ends_mono (books_createFound kept'' type)
    · rintro r x ⟨same3, ⟨rfl, kept3, steady3⟩ | ⟨file, rfl, returned⟩⟩
      · exact .inl ⟨rfl, kept3, steady_trans (steady_trans prev
          (steady_mono steady'' (le_counted h _))) steady3,
          unchanged_trans still (unchanged_trans ⟨same'', disk''⟩ same3)⟩
      refine .inr ⟨ip, rfl, ⟨returned.books, ?_, returned.cached, returned.linked⟩,
        .inl ⟨file, unchanged_trans still (unchanged_trans ⟨same'', disk''⟩ same3)⟩⟩
      exact steady_trans (steady_trans prev (steady_mono steady'' (le_counted h _))) returned.steady
    intro msg free text
    have gone := free text
    rw [same'', tree, named] at gone
    obtain ⟨removed, up⟩ := (slot_live shape dir slot).2.resolve_left (not_not.mpr gone)
    exact climbs_last aim removed up
  intro msg free text
  have gone := free text
  rw [same, dir] at gone
  cases gone

theorem returned_put {ip : Ip} {t : Fs} (returned : Returned s h ip t) : Ends (iunlockput ip) t
      (fun _ u => Books u h 0 ∧ Steady h s u ∧ Unchanged t u) (fun msg => msg = "iunlock") := by
  have borrowed := books_unsettle returned.books returned.linked
  apply ends_better (unchanged_iunlockput borrowed) _
  rintro _ u ⟨kept, steady, same⟩
  exact ⟨kept, steady_trans returned.steady steady, same⟩

end

end Xv6Fs
