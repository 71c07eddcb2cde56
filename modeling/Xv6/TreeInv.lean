import Xv6.UnlinkSpec

/- What the system calls keep of the tree. -/
namespace Xv6Fs
open Xv6 Function

section
variable {n : Nat} {N N' : Nodes} {slack : Nat → Nat}
variable {d k i : Nat} {v : Int16} {type : UInt16} {name : List UInt8}

theorem nlink16_zero {v : Node} (bare : v.nlink = 0) : v.nlink16 = 0 := by
  unfold Node.nlink16
  rw [bare]
  rfl

theorem nlink16_succ (room : v ≠ -1) : (v + 1).toUInt16.toNat = v.toUInt16.toNat + 1 := by
  have low := v.toUInt16.toNat_lt
  have one : (Int16.toUInt16 1).toNat = 1 := rfl
  have apart : v.toUInt16.toNat ≠ 65535 := by
    intro same
    apply room
    have whole : v.toUInt16 = 65535 := UInt16.toNat_inj.mp same
    change Int16.ofUInt16 v.toUInt16 = -1
    rw [whole]
    rfl
  rw [Int16.toUInt16_add, UInt16.toNat_add]
  omega

theorem nlink16_pred (pos : 0 < v.toUInt16.toNat) : (v - 1).toUInt16.toNat + 1 = v.toUInt16.toNat := by
  have low := v.toUInt16.toNat_lt
  have one : (Int16.toUInt16 1).toNat = 1 := rfl
  rw [Int16.toUInt16_sub, UInt16.toNat_sub]
  omega

theorem nlink16_toInt (nonneg : 0 ≤ v) : v.toInt = v.toUInt16.toNat := by
  have signed := Int16.le_iff_toInt_le.mp nonneg
  have value := v.toBitVec.toInt_eq_toNat_cond
  rw [← Int16.toInt] at value
  have unsigned : v.toUInt16.toNat = v.toBitVec.toNat := rfl
  have zero : (0 : Int16).toInt = 0 := rfl
  split at value
  · omega
  · omega

theorem nonneg_succ (nonneg : 0 ≤ v) (room : v ≠ 32767) : 0 ≤ v + 1 := by
  grind

theorem nonneg_pred (pos : ¬ v < 1) : 0 ≤ v - 1 := by
  grind

theorem bump_file {d j : Nat} (file : (N j).type ≠ tDir) (i : Nat) : bump N d j i = if i = j then 1 else 0 := by
  unfold bump
  rw [if_neg (c := d = i ∧ _) (fun both => file both.2), Nat.add_zero]
  simp only [eq_comm]

theorem bump_dir {d j : Nat} (folder : (N j).type = tDir) (i : Nat) :
    bump N d j i = (if i = j then 1 else 0) + if i = d then 1 else 0 := by
  unfold bump
  simp only [folder, and_true, eq_comm]

/- A new inode in directory d. -/

theorem fresh_file {i : Nat} (typed : type ≠ 0) (file : type ≠ tDir) : Fresh n i (.blank type 1) :=
  ⟨typed, fun _ _ below => absurd below (Nat.not_lt_zero _), fun dir => absurd dir file⟩

theorem fresh_dir {i d : Nat} (pos : d ≠ 0) (lt : d < n) : Fresh n i (.newDir i d) := by
  constructor
  · intro never
    cases never
  · intro k later below
    have : k < 2 := below
    omega
  intro _
  exact ⟨Nat.le_refl 2, rfl, rfl, pos, lt⟩

theorem dotted_dir {d i : Nat} (apart : d ≠ i) : dotted (update N i (.blank tDir 1)) d i tDir =
      relinked (update N i (.newDir i d)) d ((N d).nlink + 1) := by
  unfold dotted relinked
  rw [if_pos rfl, update_of_ne apart, update_of_ne apart, update_comm apart, update_idem]

theorem dotted_file {d i : Nat} (file : type ≠ tDir) : dotted N d i type = N := if_neg file

theorem plain_of_absent (shape : Shape n N) {d : Nat} (dir : (N d).type = tDir)
    (absent : (N d).slot name = none) : cname name ≠ dot ∧ cname name ≠ dotdot := by
  obtain ⟨two, first, snd, up, _⟩ := shape.dots d dir
  have pos : d ≠ 0 := by
    rintro rfl
    rw [shape.zero] at dir
    cases dir
  constructor
  · intro same
    apply slot_none absent (k := 0) (by omega)
    · rw [first]
      exact pos
    · rw [first, same]
  intro same
  apply slot_none absent (k := 1) (by omega)
  · exact up
  · rw [snd, same]

theorem tree_made (tree : TreeOk n N slack) (dir : (N d).type = tDir) (vacant : VacantSlot (N d) k)
    (pos : i ≠ 0) (lt : i < n) (free : (N i).type = 0) (typed : type ≠ 0)
    (plain : name ≠ dot ∧ name ≠ dotdot) (room : type = tDir → (N d).nlink ≠ -1) :
    TreeOk n (made N d k i type name) (update slack i 0) := by
  have apart : d ≠ i := by
    rintro rfl
    rw [free] at dir
    cases dir
  have notRoot : i ≠ rootIno := by
    rintro rfl
    rw [tree.root] at free
    cases free
  have unnamed := unnamed_of_free tree.toShape free
  unfold made
  by_cases folder : type = tDir
  · subst type
    have home : d ≠ 0 := by
      rintro rfl
      rw [tree.zero] at dir
      cases dir
    have fresh : Fresh n i (.newDir i d) := fresh_dir home (inside_of_type tree.bound (type_of_dir dir))
    have first := tree_new tree lt pos free fresh
    have count : ((N d).nlink + 1).toUInt16.toNat = links n (update N i (.newDir i d)) d + (slack d + 1) := by
      rw [nlink16_succ (room rfl), links_new tree lt free fresh, ← Nat.add_assoc, ← tree.counts d (type_of_dir dir)]
      rfl
    have snd := tree_relinked (v := (N d).nlink + 1) first (fun _ => count)
    rw [dotted_dir apart]
    have same := shape_relinked (update N i (.newDir i d)) d ((N d).nlink + 1)
    have parent := same d
    have child := same i
    rw [update_of_ne apart] at parent
    rw [update_self] at child
    apply tree_addEntry snd
    · rw [parent.1, dir]
    · unfold VacantSlot
      rw [parent.2.1, parent.2.2]
      exact vacant
    · constructor
      · exact pos
      · rw [child.1]
        exact fresh.live
      · exact notRoot
      · exact Ne.symm apart
      · exact plain
      intro _
      refine ⟨?_, ?_⟩
      · rw [shape_parentOf same]
        unfold parentOf
        rw [update_self]
        rfl
      intro d' k' named
      rw [shape_names same, names_new free fresh] at named
      exact unnamed d' k' named
    intro j
    have new : (Node.newDir i d).nlink16 = 1 := rfl
    rw [bump_dir (by rw [child.1]; rfl)]
    simp only [update_apply, new]
    grind
  have fresh : Fresh n i (.blank type 1) := fresh_file typed folder
  have first := tree_new tree lt pos free fresh
  rw [dotted_file folder]
  apply tree_addEntry first
  · rw [update_of_ne apart, dir]
  · rw [update_of_ne apart]
    exact vacant
  · constructor
    · exact pos
    · rw [update_self]
      exact typed
    · exact notRoot
    · exact Ne.symm apart
    · exact plain
    intro never
    rw [update_self] at never
    exact absurd never folder
  intro j
  have new : (Node.blank type 1).nlink16 = 1 := rfl
  rw [bump_file (by rw [update_self]; exact folder)]
  simp only [update_apply, new]
  grind

/- One more name for a file. -/

theorem tree_linked (tree : TreeOk n N slack) (dir : (N d).type = tDir) (vacant : VacantSlot (N d) k)
    (live : (N i).type ≠ 0) (file : (N i).type ≠ tDir) (plain : name ≠ dot ∧ name ≠ dotdot)
    (room : (N i).nlink ≠ -1) : TreeOk n (withEnt (relinked N i ((N i).nlink + 1)) d k (i, name)) slack := by
  have count : ((N i).nlink + 1).toUInt16.toNat = links n N i + (slack i + 1) := by
    rw [nlink16_succ room, ← Nat.add_assoc, ← tree.counts i live]
    rfl
  have first := tree_relinked (v := (N i).nlink + 1) tree (fun _ => count)
  have same := shape_relinked N i ((N i).nlink + 1)
  apply tree_addEntry first
  · rw [(same d).1, dir]
  · unfold VacantSlot
    rw [(same d).2.1, (same d).2.2]
    exact vacant
  · constructor
    · rintro rfl
      exact live tree.zero
    · rw [(same i).1]
      exact live
    · rintro rfl
      exact file tree.root
    · rintro rfl
      exact file dir
    · exact plain
    intro never
    rw [(same i).1] at never
    exact absurd never file
  intro j
  rw [bump_file (by rw [(same i).1]; exact file)]
  simp only [update_apply]
  grind

/- An entry is removed. -/

theorem tree_removed (tree : TreeOk n N slack) (named : Names N d k i) :
    TreeOk n (removed N d k i) (update slack i (slack i + 1)) := by
  have apart := (tree.entries d k i named).2.2.1
  have first := tree_delEntry tree named
  unfold removed
  by_cases folder : (N i).type = tDir
  · rw [if_pos folder]
    have prev := first.counts d (by rw [withEnt_type]; exact type_of_dir named.1)
    have extra : bump N d i d = 1 := by
      unfold bump
      rw [if_neg apart, if_pos ⟨rfl, folder⟩]
    rw [extra] at prev
    unfold Node.nlink16 at prev
    rw [withEnt_nlink] at prev
    have pred := nlink16_pred (v := (N d).nlink) (by omega)
    have value : ((N d).nlink - 1).toUInt16.toNat = links n (withEnt N d k (0, [])) d + slack d := by omega
    have snd := tree_relinked first (fun _ => value)
    have same : update (fun j => slack j + bump N d i j) d (slack d) = update slack i (slack i + 1) := by
      funext j
      simp only [update_apply, bump_dir folder]
      grind
    rw [same] at snd
    exact snd
  rw [if_neg folder]
  have same : (fun j => slack j + bump N d i j) = update slack i (slack i + 1) := by
    funext j
    simp only [update_apply, bump_file folder]
    grind
  rw [same] at first
  exact first

theorem tree_mayFree (tree : TreeOk n N slack) {i : Nat} (freed : MayFree N i N') :
    ∃ slack', TreeOk n N' slack' ∧ (∀ j, slack j ≤ slack' j) ∧ (Swept N → slack' = slack ∧ Swept N') := by
  rcases freed with rfl | ⟨live, bare, rfl⟩
  · exact ⟨slack, tree, fun _ => Nat.le_refl _, fun swept => ⟨rfl, swept⟩⟩
  have count := tree.counts i live
  rw [nlink16_zero bare] at count
  have none : links n N i = 0 := by omega
  obtain ⟨slack', tree', more, exact⟩ := tree_free tree none
  refine ⟨slack', tree', more, ?_⟩
  intro swept
  obtain ⟨notRoot, unnamed, _⟩ := links_zero tree.bound none
  exact ⟨exact (swept i ⟨notRoot, unnamed⟩), swept_free tree none swept⟩

theorem tree_unlinked (tree : TreeOk n N slack) {i : Nat} (value : (N i).nlink = v) (live : (N i).type ≠ 0)
    (extra : 0 < slack i) : TreeOk n (relinked N i (v - 1)) (update slack i (slack i - 1)) := by
  have count := tree.counts i live
  unfold Node.nlink16 at count
  rw [value] at count
  have pred := nlink16_pred (v := v) (by omega)
  exact tree_relinked tree (fun _ => by omega)

/-- The invariant of the tree. If it is exact, link counts are too, and removed directories are
    empty. -/
def Sound (exact : Bool) (n : Nat) (N : Nodes) : Prop :=
  ∃ slack, TreeOk n N slack ∧ (exact = true → slack = 0 ∧ Swept N ∧ ∀ i, 0 ≤ (N i).nlink)

variable {exact : Bool}

theorem sound_shape (sound : Sound exact n N) : Shape n N := by
  obtain ⟨_, tree, _⟩ := sound
  exact tree.toShape

theorem orphan_bare (tree : TreeOk n N 0) (swept : Swept N) {d : Nat} (orphan : Orphan N d)
    (live : (N d).type ≠ 0) : (N d).nlink = 0 := by
  have none : links n N d = 0 := by
    unfold links
    rw [if_neg orphan.1, Nat.add_zero, Finset.sum_eq_zero_iff]
    intro l mem
    have names := (names_iff tree.bound (d := l.1) (k := l.2)).mpr ⟨mem, rfl⟩
    have other : target N l ≠ d := by
      intro hits
      exact orphan.2 l.1 l.2 (hits ▸ names)
    have away : l.1 ≠ d := by
      intro same
      rw [same] at names
      exact swept d orphan _ _ names
    unfold weight
    rw [if_neg other, if_neg (fun both => away both.1), Nat.add_zero]
  have count := tree.counts d live
  rw [none] at count
  have zero : (N d).nlink.toUInt16 = 0 := UInt16.toNat_inj.mp count
  change Int16.ofUInt16 (N d).nlink.toUInt16 = 0
  rw [zero]
  rfl

theorem made_nlink (apart : d ≠ i) (j : Nat) : (made N d k i type name j).nlink = if j = i then 1 else
      if j = d ∧ type = tDir then (N d).nlink + 1 else (N j).nlink := by
  by_cases atChild : j = i
  · rw [if_pos atChild, atChild, (made_new apart).2]
  rw [if_neg atChild]
  unfold made
  rw [withEnt_nlink]
  by_cases folder : type = tDir
  · subst type
    rw [dotted_dir apart]
    unfold relinked
    by_cases atParent : j = d
    · subst j
      rw [update_self, if_pos ⟨rfl, rfl⟩]
      rfl
    · rw [update_of_ne atParent, if_neg (fun both => atParent both.1), update_of_ne atChild]
  · rw [dotted_file folder, if_neg (fun both => folder both.2), update_of_ne atChild]

theorem swept_made (swept : Swept N) (dir : (N d).type = tDir) (vacant : VacantSlot (N d) k)
    (free : (N i).type = 0) (typed : type ≠ 0) (lt : d < n) (pos : d ≠ 0) (home : ¬ Orphan N d) :
    Swept (made N d k i type name) := by
  have apart : d ≠ i := by
    rintro rfl
    rw [free] at dir
    cases dir
  unfold made
  by_cases folder : type = tDir
  · subst type
    have fresh : Fresh n i (.newDir i d) := fresh_dir pos lt
    have same := shape_relinked (update N i (.newDir i d)) d ((N d).nlink + 1)
    rw [dotted_dir apart]
    apply swept_addEntry (swept_shape same (swept_new free fresh swept))
    · rw [(same d).1, update_of_ne apart, dir]
    · unfold VacantSlot
      rw [(same d).2.1, (same d).2.2, update_of_ne apart]
      exact vacant
    rw [orphan_shape same]
    intro orphan
    exact home ⟨orphan.1, fun d' x named => orphan.2 d' x ((names_new free fresh).mpr named)⟩
  have fresh : Fresh n i (.blank type 1) := fresh_file typed folder
  rw [dotted_file folder]
  apply swept_addEntry (swept_new free fresh swept)
  · rw [update_of_ne apart, dir]
  · rw [update_of_ne apart]
    exact vacant
  intro orphan
  exact home ⟨orphan.1, fun d' x named => orphan.2 d' x ((names_new free fresh).mpr named)⟩

theorem sound_made (sound : Sound exact n N) {cwd : Nat} {path : List UInt8}
    (typed : type ≠ 0) (new : Made n N cwd path type N')
    (room : ∀ d name, resolve N cwd path true = some (d, name) → (N d).slot name = none →
      type = tDir → (N d).nlink ≠ -1) (home : exact = true → ∀ d name, resolve N cwd path true = some (d, name) →
      (N d).slot name = none → 0 < (N d).nlink ∧ (type = tDir → (N d).nlink ≠ 32767)) : Sound exact n N' := by
  obtain ⟨slack, tree, strict⟩ := sound
  obtain ⟨d, name, k, i, aim, absent, dir, vacant, pos, inside, free, rfl⟩ := new
  have plain := plain_of_absent tree.toShape dir absent
  refine ⟨_, tree_made tree dir vacant pos inside free typed plain (room d name aim absent), ?_⟩
  intro exact
  obtain ⟨rfl, swept, nonneg⟩ := strict exact
  obtain ⟨linked, top⟩ := home exact d name aim absent
  have apart : d ≠ i := by
    rintro rfl
    rw [free] at dir
    cases dir
  have nz : d ≠ 0 := by
    rintro rfl
    rw [tree.zero] at dir
    cases dir
  refine ⟨update_eq_self i (0 : Nat → Nat), ?_, ?_⟩
  · apply swept_made swept dir vacant free typed
      (inside_of_type tree.bound (type_of_dir dir)) nz
    intro orphan
    rw [orphan_bare tree swept orphan (type_of_dir dir)] at linked
    exact absurd linked (by decide)
  intro j
  rw [made_nlink apart]
  split
  · decide
  split
  · rename_i both
    exact nonneg_succ (nonneg d) (top both.2)
  · exact nonneg j

theorem sound_linked (sound : Sound exact n N) {cwd : Nat} {old new : List UInt8} (linked : Linked N cwd old new N')
    (room : ∀ i last d name, resolve N cwd old false = some (i, last) → (N i).type ≠ tDir →
      resolve N cwd new true = some (d, name) → (N d).slot name = none → (N i).nlink ≠ -1)
    (home : exact = true → ∀ i last d name, resolve N cwd old false = some (i, last) →
      (N i).type ≠ tDir → resolve N cwd new true = some (d, name) → (N d).slot name = none →
      0 < (N d).nlink ∧ (N i).nlink ≠ 32767) : Sound exact n N' := by
  obtain ⟨slack, tree, strict⟩ := sound
  obtain ⟨i, d, name, k, ⟨last, aim⟩, live, file, found, absent, dir, vacant, rfl⟩ := linked
  have plain := plain_of_absent tree.toShape dir absent
  refine ⟨slack, tree_linked tree dir vacant live file plain
    (room i last d name aim file found absent), ?_⟩
  intro exact
  obtain ⟨rfl, swept, nonneg⟩ := strict exact
  obtain ⟨inTree, top⟩ := home exact i last d name aim file found absent
  have same := shape_relinked N i ((N i).nlink + 1)
  refine ⟨rfl, ?_, ?_⟩
  · apply swept_addEntry (swept_shape same swept)
    · rw [(same d).1, dir]
    · unfold VacantSlot
      rw [(same d).2.1, (same d).2.2]
      exact vacant
    rw [orphan_shape same]
    intro orphan
    rw [orphan_bare tree swept orphan (type_of_dir dir)] at inTree
    exact absurd inTree (by decide)
  intro j
  rw [withEnt_nlink]
  unfold relinked
  by_cases here : j = i
  · subst j
    rw [update_self]
    exact nonneg_succ (nonneg i) top
  rw [update_of_ne here]
  exact nonneg j

theorem sound_mayFree (sound : Sound exact n N) {i : Nat} (freed : MayFree N i N') : Sound exact n N' := by
  obtain ⟨slack, tree, strict⟩ := sound
  obtain ⟨slack', tree', _, kept⟩ := tree_mayFree tree freed
  refine ⟨slack', tree', ?_⟩
  intro exact
  obtain ⟨rfl, swept, nonneg⟩ := strict exact
  obtain ⟨same, swept'⟩ := kept swept
  refine ⟨same, swept', ?_⟩
  rcases freed with rfl | ⟨_, _, rfl⟩
  · exact nonneg
  intro j
  rw [update_apply]
  split
  · decide
  · exact nonneg j

theorem swept_removed (swept : Swept N) (named : Names N d k i)
    (empty : (N i).type = tDir → ∀ k' j, ¬ Names N i k' j) : Swept (removed N d k i) := by
  have first : Swept (withEnt N d k (0, [])) :=
    swept_delEntry swept named (fun k' j found => empty found.1 k' j found)
  unfold removed
  split
  · exact swept_shape (shape_relinked _ _ _) first
  · exact first

theorem removed_nonneg (tree : TreeOk n N slack) (named : Names N d k i)
    (nonneg : ∀ j, 0 ≤ (N j).nlink) (j : Nat) : 0 ≤ (removed N d k i j).nlink := by
  have parent : (N i).type = tDir → ¬ (N d).nlink < 1 := by
    intro folder short
    -- the parent of a directory has the link of its ".."
    have zero : (N d).nlink = 0 := by
      have := nonneg d
      grind
    have count := tree.counts d (type_of_dir named.1)
    rw [nlink16_zero zero] at count
    exact (links_zero tree.bound (by omega)).2.2 k i named folder
  unfold removed
  split
  · rename_i folder
    unfold relinked
    by_cases here : j = d
    · subst j
      rw [update_self]
      exact nonneg_pred (parent folder)
    rw [update_of_ne here, withEnt_nlink]
    exact nonneg j
  rw [withEnt_nlink]
  exact nonneg j

theorem sound_unlinked (sound : Sound exact n N) {cwd : Nat} {path : List UInt8}
    (gone : Unlinked N cwd path N') : Sound exact n N' := by
  obtain ⟨slack, tree, strict⟩ := sound
  obtain ⟨d, name, k, i, M, aim, named, linked, empty, freed, freed'⟩ := gone
  have apart := (tree.entries d k i named).2.2.1
  have same := mayFree_other freed apart
  have value : (M i).nlink = (N i).nlink := by rw [same, removed_nlink N apart]
  have live : (M i).type ≠ 0 := by
    rw [same, removed_type]
    exact (tree.entries d k i named).1
  have first := tree_removed tree named
  obtain ⟨slack1, snd, more, kept⟩ := tree_mayFree first freed
  have extra := more i
  rw [update_self] at extra
  have third := tree_unlinked snd value live (by omega)
  refine sound_mayFree ⟨_, third, ?_⟩ freed'
  intro exact
  obtain ⟨rfl, swept, nonneg⟩ := strict exact
  have swept1 := swept_removed swept named empty
  obtain ⟨rfl, swept2⟩ := kept swept1
  refine ⟨?_, swept_shape (shape_relinked _ _ _) swept2, ?_⟩
  · funext j
    simp only [update_apply]
    grind
  intro j
  unfold relinked
  by_cases here : j = i
  · subst j
    rw [update_self]
    exact nonneg_pred linked
  rw [update_of_ne here]
  have prev := removed_nonneg tree named nonneg j
  rcases freed with rfl | ⟨_, _, rfl⟩
  · exact prev
  rw [update_apply]
  split
  · decide
  · exact prev

end

end Xv6Fs
