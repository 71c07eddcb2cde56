import Mathlib.Algebra.BigOperators.Group.Finset.Basic
import Mathlib.Algebra.Order.BigOperators.Group.Finset
import Xv6.Nodes

/- Links between inodes. Every entry but the first two of a directory counts for the inode it
   names, and once more for the directory itself if that is a directory: the ".." in it. -/
namespace Xv6Fs
open Xv6 Function Finset

def target (N : Nodes) (l : Nat × Nat) : Nat := ((N l.1).ent l.2).1

def places (n : Nat) (N : Nodes) : Finset (Nat × Nat) :=
  ((Finset.range n).biUnion fun d => (Finset.range (N d).count).image (Prod.mk d)).filter fun l =>
    (N l.1).type = tDir ∧ 2 ≤ l.2 ∧ target N l ≠ 0

def weight (N : Nodes) (i : Nat) (l : Nat × Nat) : Nat :=
  (if target N l = i then 1 else 0) +
    if l.1 = i ∧ (N (target N l)).type = tDir then 1 else 0

/-- The links of inode i. The root directory has one more, its own "..". -/
def links (n : Nat) (N : Nodes) (i : Nat) : Nat :=
  (∑ l ∈ places n N, weight N i l) + if i = rootIno then 1 else 0

def Node.nlink16 (n : Node) : Nat := n.nlink.toUInt16.toNat

def parentOf (N : Nodes) (d : Nat) : Nat := ((N d).ent 1).1

/-- Directories of n inodes: the first two entries are "." and "..", and every other one names
    an allocated inode; a directory is named once, by the directory that its ".." names. -/
structure Shape (n : Nat) (N : Nodes) : Prop where
  bound : ∀ i, n ≤ i → (N i).type = 0
  zero : (N 0).type = 0
  root : (N rootIno).type = tDir
  dots : ∀ d, (N d).type = tDir → 2 ≤ (N d).count ∧ (N d).ent 0 = (d, dot) ∧
    ((N d).ent 1).2 = dotdot ∧ parentOf N d ≠ 0 ∧ parentOf N d < n
  top : parentOf N rootIno = rootIno
  entries : ∀ d k j, Names N d k j → (N j).type ≠ 0 ∧ j ≠ rootIno ∧ j ≠ d ∧
    ((N d).ent k).2 ≠ dot ∧ ((N d).ent k).2 ≠ dotdot
  child : ∀ d k j, Names N d k j → (N j).type = tDir → parentOf N j = d
  once : ∀ d k d' k' j, Names N d k j → Names N d' k' j → (N j).type = tDir → (d, k) = (d', k')

/-- A file tree; inode i has slack i more links counted than it has. -/
structure TreeOk (n : Nat) (N : Nodes) (slack : Nat → Nat) : Prop extends Shape n N where
  counts : ∀ i, (N i).type ≠ 0 → (N i).nlink16 = links n N i + slack i

section
variable {n : Nat} {N : Nodes} {slack : Nat → Nat}
variable {i : Nat}

theorem mem_places {l : Nat × Nat} : l ∈ places n N ↔
    l.1 < n ∧ (N l.1).type = tDir ∧ 2 ≤ l.2 ∧ l.2 < (N l.1).count ∧ target N l ≠ 0 := by
  unfold places
  rw [mem_filter, mem_biUnion]
  constructor
  · rintro ⟨⟨d, small, mem⟩, dir, later, used⟩
    obtain ⟨k, below, rfl⟩ := mem_image.mp mem
    exact ⟨mem_range.mp small, dir, later, mem_range.mp below, used⟩
  rintro ⟨small, dir, later, below, used⟩
  exact ⟨⟨l.1, mem_range.mpr small, mem_image.mpr
    ⟨l.2, mem_range.mpr below, rfl⟩⟩, dir, later, used⟩

theorem inside_of_type (bound : ∀ i, n ≤ i → (N i).type = 0) (live : (N i).type ≠ 0) : i < n := by
  by_contra beyond
  exact live (bound i (by omega))

theorem type_of_dir {type : UInt16} (dir : type = tDir) : type ≠ 0 := by
  rw [dir]
  decide

theorem names_iff (bound : ∀ i, n ≤ i → (N i).type = 0) {d k j : Nat} :
    Names N d k j ↔ (d, k) ∈ places n N ∧ target N (d, k) = j := by
  rw [mem_places]
  unfold Names target
  constructor
  · rintro ⟨dir, later, below, same, nz⟩
    refine ⟨⟨inside_of_type bound (type_of_dir dir), dir, later, below, ?_⟩, same⟩
    rwa [same]
  rintro ⟨⟨_, dir, later, below, nz⟩, same⟩
  refine ⟨dir, later, below, same, ?_⟩
  rwa [← same]

theorem weight_target {l : Nat × Nat} (same : target N l = i) : 0 < weight N i l := by
  unfold weight
  rw [if_pos same]
  omega

theorem links_zero (bound : ∀ i, n ≤ i → (N i).type = 0) (none : links n N i = 0) :
    i ≠ rootIno ∧ (∀ d k, ¬ Names N d k i) ∧ ∀ k j, Names N i k j → (N j).type ≠ tDir := by
  unfold links at none
  have sum : ∑ l ∈ places n N, weight N i l = 0 := by omega
  rw [sum_eq_zero_iff] at sum
  refine ⟨?_, ?_, ?_⟩
  · rintro rfl
    rw [if_pos rfl] at none
    omega
  · intro d k names
    obtain ⟨mem, same⟩ := (names_iff bound).mp names
    have := sum _ mem
    have := weight_target same
    omega
  intro k j names dir
  obtain ⟨mem, same⟩ := (names_iff bound).mp names
  have zero := sum _ mem
  unfold weight at zero
  rw [same] at zero
  rw [if_pos (And.intro rfl dir)] at zero
  omega

end

/- Changes of the link counts alone. -/
section
variable {n : Nat} {N N' : Nodes} {slack : Nat → Nat}

def SameShape (N N' : Nodes) : Prop :=
  ∀ i, (N' i).type = (N i).type ∧ (N' i).count = (N i).count ∧ (N' i).ent = (N i).ent

theorem shape_names (same : SameShape N N') {d k j : Nat} : Names N' d k j ↔ Names N d k j := by
  obtain ⟨type, count, ent⟩ := same d
  unfold Names
  rw [type, count, ent]

theorem shape_target (same : SameShape N N') (l : Nat × Nat) : target N' l = target N l := by
  unfold target
  rw [(same l.1).2.2]

theorem shape_places (same : SameShape N N') : places n N' = places n N := by
  ext l
  rw [mem_places, mem_places, (same l.1).1, (same l.1).2.1, shape_target same]

theorem shape_links (same : SameShape N N') (i : Nat) : links n N' i = links n N i := by
  unfold links
  rw [shape_places same]
  congr 1
  apply sum_congr rfl
  intro l _
  unfold weight
  rw [shape_target same, (same _).1]

theorem shape_parentOf (same : SameShape N N') (d : Nat) : parentOf N' d = parentOf N d := by
  unfold parentOf
  rw [(same d).2.2]

theorem shape_kept (shape : Shape n N) (same : SameShape N N') : Shape n N' where
  bound := by
    intro i beyond
    rw [(same i).1, shape.bound i beyond]
  zero := by rw [(same 0).1, shape.zero]
  root := by rw [(same _).1, shape.root]
  dots := by
    intro d dir
    rw [(same d).1] at dir
    rw [(same d).2.1, (same d).2.2, shape_parentOf same]
    exact shape.dots d dir
  top := by rw [shape_parentOf same, shape.top]
  entries := by
    intro d k j names
    rw [shape_names same] at names
    rw [(same j).1, (same d).2.2]
    exact shape.entries d k j names
  child := by
    intro d k j names dir
    rw [shape_names same] at names
    rw [(same j).1] at dir
    rw [shape_parentOf same]
    exact shape.child d k j names dir
  once := by
    intro d k d' k' j first snd dir
    rw [shape_names same] at first snd
    rw [(same j).1] at dir
    exact shape.once d k d' k' j first snd dir

def relinked (N : Nodes) (i : Nat) (v : Int16) : Nodes := Function.update N i ((N i).setNlink v)

theorem shape_relinked (N : Nodes) (i : Nat) (v : Int16) : SameShape N (relinked N i v) := by
  intro j
  unfold relinked
  by_cases here : j = i
  · subst j
    rw [update_self]
    exact ⟨rfl, rfl, rfl⟩
  rw [update_of_ne here]
  exact ⟨rfl, rfl, rfl⟩

theorem tree_relinked (tree : TreeOk n N slack) {i extra : Nat} {v : Int16}
    (value : (N i).type ≠ 0 → v.toUInt16.toNat = links n N i + extra) :
    TreeOk n (relinked N i v) (update slack i extra) := by
  have same := shape_relinked N i v
  refine ⟨shape_kept tree.toShape same, ?_⟩
  intro j live
  rw [(same j).1] at live
  rw [shape_links same]
  unfold relinked
  by_cases here : j = i
  · subst j
    rw [update_self, update_self]
    exact value live
  rw [update_of_ne here, update_of_ne here]
  exact tree.counts j live

end

/- A new entry k of directory d, past the first two. -/
section
variable {n : Nat} {N : Nodes} {slack : Nat → Nat} {d k : Nat} {e : Nat × List UInt8}
variable {j : Nat}

def bump (N : Nodes) (d j i : Nat) : Nat :=
  (if j = i then 1 else 0) + if d = i ∧ (N j).type = tDir then 1 else 0

def withEnt (N : Nodes) (d k : Nat) (e : Nat × List UInt8) : Nodes :=
  Function.update N d ((N d).setEnt k e)

theorem withEnt_type (i : Nat) : (withEnt N d k e i).type = (N i).type := by
  unfold withEnt
  by_cases here : i = d
  · rw [here, update_self]
    rfl
  · rw [update_of_ne here]

theorem withEnt_nlink (i : Nat) : (withEnt N d k e i).nlink = (N i).nlink := by
  unfold withEnt
  by_cases here : i = d
  · rw [here, update_self]
    rfl
  · rw [update_of_ne here]

theorem withEnt_ent (i x : Nat) : (withEnt N d k e i).ent x = if (i, x) = (d, k) then e else (N i).ent x := by
  unfold withEnt
  by_cases here : i = d
  · subst i
    rw [update_self]
    change update (N d).ent k e x = _
    rw [update_apply]
    simp only [Prod.mk.injEq, true_and]
  · rw [update_of_ne here, if_neg (fun same => here (Prod.mk.inj same).1)]

theorem withEnt_count (i : Nat) :
    (withEnt N d k e i).count = if i = d then max (N d).count (k + 1) else (N i).count := by
  unfold withEnt
  by_cases here : i = d
  · subst i
    rw [update_self, if_pos rfl]
    rfl
  · rw [update_of_ne here, if_neg here]

theorem withEnt_target (l : Nat × Nat) : target (withEnt N d k e) l = if l = (d, k) then e.1 else target N l := by
  unfold target
  rw [withEnt_ent]
  split
  · rfl
  · rfl

theorem withEnt_parentOf (later : 2 ≤ k) (i : Nat) : parentOf (withEnt N d k e) i = parentOf N i := by
  unfold parentOf
  rw [withEnt_ent, if_neg]
  intro same
  have := (Prod.mk.inj same).2
  omega

theorem withEnt_below (near : k ≤ (N d).count) {i x : Nat} (other : (i, x) ≠ (d, k)) :
    x < (withEnt N d k e i).count ↔ x < (N i).count := by
  rw [withEnt_count]
  split
  · rename_i here
    subst i
    have apart : x ≠ k := fun same => other (by rw [same])
    omega
  · rfl

theorem withEnt_names (dir : (N d).type = tDir) (later : 2 ≤ k) (near : k ≤ (N d).count)
    {d' k' j : Nat} : Names (withEnt N d k e) d' k' j ↔
      if (d', k') = (d, k) then e.1 = j ∧ j ≠ 0 else Names N d' k' j := by
  unfold Names
  rw [withEnt_type, withEnt_ent]
  by_cases here : (d', k') = (d, k)
  · obtain ⟨rfl, rfl⟩ := Prod.mk.inj here
    rw [if_pos rfl, if_pos rfl, withEnt_count, if_pos rfl]
    constructor
    · rintro ⟨_, _, _, same⟩
      exact same
    intro same
    exact ⟨dir, later, by omega, same⟩
  · rw [if_neg here, if_neg here, withEnt_below near here]

theorem withEnt_places (near : k ≤ (N d).count) :
    (places n (withEnt N d k e)).erase (d, k) = (places n N).erase (d, k) := by
  ext l
  rw [mem_erase, mem_erase, mem_places, mem_places]
  by_cases here : l = (d, k)
  · simp [here]
  · rw [withEnt_type, withEnt_target, if_neg here, withEnt_below near here]

theorem sum_erase {P : Finset (Nat × Nat)} (f : Nat × Nat → Nat) (l : Nat × Nat) :
    ∑ x ∈ P, f x = (∑ x ∈ P.erase l, f x) + if l ∈ P then f l else 0 := by
  by_cases mem : l ∈ P
  · rw [if_pos mem, sum_erase_add _ _ mem]
  · rw [if_neg mem, erase_eq_of_notMem mem, Nat.add_zero]

theorem links_withEnt (bound : ∀ i, n ≤ i → (N i).type = 0) (dir : (N d).type = tDir)
    (later : 2 ≤ k) (near : k ≤ (N d).count) (i : Nat) :
    links n (withEnt N d k e) i + (if (d, k) ∈ places n N then bump N d (target N (d, k)) i else 0) =
      links n N i + if e.1 = 0 then 0 else bump N d e.1 i := by
  have inside := inside_of_type bound (type_of_dir dir)
  have others : ∑ l ∈ (places n (withEnt N d k e)).erase (d, k), weight (withEnt N d k e) i l =
      ∑ l ∈ (places n N).erase (d, k), weight N i l := by
    rw [withEnt_places near]
    apply sum_congr rfl
    intro l mem
    unfold weight
    rw [withEnt_target, if_neg (ne_of_mem_erase mem), withEnt_type]
  have new : (d, k) ∈ places n (withEnt N d k e) ↔ e.1 ≠ 0 := by
    rw [mem_places, withEnt_type, withEnt_target, if_pos rfl, withEnt_count, if_pos rfl]
    constructor
    · rintro ⟨_, _, _, _, used⟩
      exact used
    intro used
    exact ⟨inside, dir, later, by omega, used⟩
  have here : weight (withEnt N d k e) i (d, k) = bump N d e.1 i := by
    unfold weight bump
    rw [withEnt_target, if_pos rfl, withEnt_type]
  have prev : weight N i (d, k) = bump N d (target N (d, k)) i := rfl
  unfold links
  rw [sum_erase (P := places n (withEnt N d k e)) _ (d, k), sum_erase (P := places n N) _ (d, k), others, here, prev]
  by_cases empty : e.1 = 0
  · rw [if_neg (fun mem => new.mp mem empty), if_pos empty]
    omega
  rw [if_pos (new.mpr empty), if_neg empty]
  omega

def VacantSlot (n : Node) (k : Nat) : Prop :=
  2 ≤ k ∧ k ≤ n.count ∧ (k < n.count → (n.ent k).1 = 0)

theorem vacant_not_place (vacant : VacantSlot (N d) k) : (d, k) ∉ places n N := by
  rw [mem_places]
  rintro ⟨_, _, _, below, used⟩
  exact used (vacant.2.2 below)

/-- What must hold of j for an entry of d to name it. -/
structure Nameable (N : Nodes) (d j : Nat) (name : List UInt8) : Prop where
  nonzero : j ≠ 0
  live : (N j).type ≠ 0
  notRoot : j ≠ rootIno
  apart : j ≠ d
  plain : name ≠ dot ∧ name ≠ dotdot
  single : (N j).type = tDir → parentOf N j = d ∧ ∀ d' k', ¬ Names N d' k' j

theorem withEnt_dots (shape : Shape n N) (later : 2 ≤ k) {i : Nat} (folder : (withEnt N d k e i).type = tDir) :
    2 ≤ (withEnt N d k e i).count ∧ (withEnt N d k e i).ent 0 = (i, dot) ∧
      ((withEnt N d k e i).ent 1).2 = dotdot ∧ parentOf (withEnt N d k e) i ≠ 0 ∧ parentOf (withEnt N d k e) i < n := by
  rw [withEnt_type] at folder
  obtain ⟨two, first, snd, up⟩ := shape.dots i folder
  have low : ∀ x < 2, (withEnt N d k e i).ent x = (N i).ent x := by
    intro x small
    rw [withEnt_ent, if_neg]
    intro same
    have := (Prod.mk.inj same).2
    omega
  rw [low 0 (by omega), low 1 (by omega), withEnt_parentOf later, withEnt_count]
  refine ⟨?_, first, snd, up⟩
  split
  · rename_i here
    subst i
    omega
  · exact two

theorem shape_addEntry (shape : Shape n N) (dir : (N d).type = tDir) (vacant : VacantSlot (N d) k)
    {name : List UInt8} (nameable : Nameable N d j name) : Shape n (withEnt N d k (j, name)) := by
  have names := @withEnt_names N d k (j, name) dir vacant.1 vacant.2.1
  have parents := @withEnt_parentOf N d k (j, name) vacant.1
  constructor
  · intro i beyond
    rw [withEnt_type, shape.bound i beyond]
  · rw [withEnt_type, shape.zero]
  · rw [withEnt_type, shape.root]
  · intro i folder
    exact withEnt_dots shape vacant.1 folder
  · rw [parents, shape.top]
  · intro d' k' j' found
    rw [names] at found
    rw [withEnt_type, withEnt_ent]
    by_cases here : (d', k') = (d, k)
    · rw [if_pos here] at found ⊢
      obtain ⟨rfl, _⟩ := found
      refine ⟨nameable.live, nameable.notRoot, ?_, nameable.plain⟩
      rw [(Prod.mk.inj here).1]
      exact nameable.apart
    rw [if_neg here] at found ⊢
    exact shape.entries d' k' j' found
  · intro d' k' j' found folder
    rw [names] at found
    rw [withEnt_type] at folder
    rw [parents]
    by_cases here : (d', k') = (d, k)
    · rw [if_pos here] at found
      obtain ⟨rfl, _⟩ := found
      rw [(Prod.mk.inj here).1]
      exact (nameable.single folder).1
    rw [if_neg here] at found
    exact shape.child d' k' j' found folder
  intro d1 k1 d2 k2 j' first snd folder
  rw [names] at first snd
  rw [withEnt_type] at folder
  by_cases here : (d1, k1) = (d, k)
  · by_cases there : (d2, k2) = (d, k)
    · rw [here, there]
    rw [if_pos here] at first
    rw [if_neg there] at snd
    obtain ⟨rfl, _⟩ := first
    exact absurd snd ((nameable.single folder).2 d2 k2)
  rw [if_neg here] at first
  by_cases there : (d2, k2) = (d, k)
  · rw [if_pos there] at snd
    obtain ⟨rfl, _⟩ := snd
    exact absurd first ((nameable.single folder).2 d1 k1)
  rw [if_neg there] at snd
  exact shape.once d1 k1 d2 k2 j' first snd folder

theorem tree_addEntry {slack' : Nat → Nat} (tree : TreeOk n N slack) (dir : (N d).type = tDir)
    (vacant : VacantSlot (N d) k) {name : List UInt8} (nameable : Nameable N d j name)
    (counted : ∀ i, slack i = slack' i + bump N d j i) : TreeOk n (withEnt N d k (j, name)) slack' := by
  refine ⟨shape_addEntry tree.toShape dir vacant nameable, ?_⟩
  intro i live
  rw [withEnt_type] at live
  have change := links_withEnt (e := (j, name)) tree.bound dir vacant.1 vacant.2.1 i
  rw [if_neg (vacant_not_place vacant), if_neg nameable.nonzero] at change
  have count := tree.counts i live
  have extra := counted i
  unfold Node.nlink16 at count ⊢
  rw [withEnt_nlink]
  simp only at change
  omega

theorem shape_delEntry (shape : Shape n N) (named : Names N d k j) : Shape n (withEnt N d k (0, [])) := by
  obtain ⟨dir, later, below, same, nz⟩ := named
  have near : k ≤ (N d).count := by omega
  have names := @withEnt_names N d k (0, []) dir later near
  have parents := @withEnt_parentOf N d k (0, []) later
  have fewer : ∀ d' k' j', Names (withEnt N d k (0, [])) d' k' j' → (d', k') ≠ (d, k) ∧ Names N d' k' j' := by
    intro d' k' j' found
    rw [names] at found
    by_cases here : (d', k') = (d, k)
    · rw [if_pos here] at found
      exact absurd found.1.symm found.2
    rw [if_neg here] at found
    exact ⟨here, found⟩
  constructor
  · intro i beyond
    rw [withEnt_type, shape.bound i beyond]
  · rw [withEnt_type, shape.zero]
  · rw [withEnt_type, shape.root]
  · intro i folder
    exact withEnt_dots shape later folder
  · rw [parents, shape.top]
  · intro d' k' j' found
    obtain ⟨other, old⟩ := fewer d' k' j' found
    rw [withEnt_type, withEnt_ent, if_neg other]
    exact shape.entries d' k' j' old
  · intro d' k' j' found folder
    rw [withEnt_type] at folder
    rw [parents]
    exact shape.child d' k' j' (fewer d' k' j' found).2 folder
  intro d1 k1 d2 k2 j' first snd folder
  rw [withEnt_type] at folder
  exact shape.once d1 k1 d2 k2 j' (fewer _ _ _ first).2 (fewer _ _ _ snd).2 folder

theorem tree_delEntry (tree : TreeOk n N slack) (named : Names N d k j) :
    TreeOk n (withEnt N d k (0, [])) (fun i => slack i + bump N d j i) := by
  refine ⟨shape_delEntry tree.toShape named, ?_⟩
  intro i live
  rw [withEnt_type] at live
  have near : k ≤ (N d).count := Nat.le_of_lt named.2.2.1
  have change := links_withEnt (e := (0, [])) tree.bound named.1 named.2.1 near i
  have aim : target N (d, k) = j := named.2.2.2.1
  rw [if_pos ((names_iff tree.bound).mp named).1, if_pos rfl, aim] at change
  have count := tree.counts i live
  unfold Node.nlink16 at count ⊢
  rw [withEnt_nlink]
  omega

end

/- Inodes that come and go. -/
section
variable {n : Nat} {N : Nodes} {slack : Nat → Nat} {i : Nat}

/-- An inode that names nothing but itself and its parent. -/
structure Fresh (n i : Nat) (v : Node) : Prop where
  live : v.type ≠ 0
  empty : ∀ k, 2 ≤ k → k < v.count → (v.ent k).1 = 0
  dots : v.type = tDir → 2 ≤ v.count ∧ v.ent 0 = (i, dot) ∧ (v.ent 1).2 = dotdot ∧
    (v.ent 1).1 ≠ 0 ∧ (v.ent 1).1 < n

theorem unnamed_of_free (shape : Shape n N) (free : (N i).type = 0) (d k : Nat) : ¬ Names N d k i := by
  intro names
  exact (shape.entries d k i names).1 free

theorem names_new (free : (N i).type = 0) {v : Node} (fresh : Fresh n i v) {d k j : Nat} :
    Names (update N i v) d k j ↔ Names N d k j := by
  unfold Names
  by_cases here : d = i
  · subst d
    rw [update_self, free]
    constructor
    · rintro ⟨_, later, below, same, nz⟩
      exact absurd (same.symm.trans (fresh.empty k later below)) nz
    rintro ⟨never, _⟩
    cases never
  · rw [update_of_ne here]

theorem links_new (tree : TreeOk n N slack) (lt : i < n) (free : (N i).type = 0) {v : Node}
    (fresh : Fresh n i v) (j : Nat) : links n (update N i v) j = links n N j := by
  have bound : ∀ x, n ≤ x → (update N i v x).type = 0 := by
    intro x beyond
    rw [update_of_ne (by omega)]
    exact tree.bound x beyond
  have aim : ∀ l ∈ places n N, target (update N i v) l = target N l := by
    intro l mem
    have other : l.1 ≠ i := by
      rintro same
      have dir := (mem_places.mp mem).2.1
      rw [same, free] at dir
      cases dir
    unfold target
    rw [update_of_ne other]
  have same : places n (update N i v) = places n N := by
    ext l
    constructor
    · intro mem
      have names := (names_iff bound (d := l.1) (k := l.2)).mpr ⟨mem, rfl⟩
      exact ((names_iff tree.bound).mp ((names_new free fresh).mp names)).1
    intro mem
    have names := (names_iff tree.bound (d := l.1) (k := l.2)).mpr ⟨mem, rfl⟩
    exact ((names_iff bound).mp ((names_new free fresh).mpr names)).1
  unfold links
  rw [same]
  congr 1
  apply sum_congr rfl
  intro l mem
  have names := (names_iff tree.bound (d := l.1) (k := l.2)).mpr ⟨mem, rfl⟩
  have other : target N l ≠ i := by
    intro hits
    exact unnamed_of_free tree.toShape free l.1 l.2 (hits ▸ names)
  unfold weight
  rw [aim l mem, update_of_ne other]

theorem links_of_free (tree : TreeOk n N slack) (free : (N i).type = 0) : links n N i = 0 := by
  have notRoot : i ≠ rootIno := by
    rintro rfl
    rw [tree.root] at free
    cases free
  unfold links
  rw [if_neg notRoot, Nat.add_zero, sum_eq_zero_iff]
  intro l mem
  have names := (names_iff tree.bound (d := l.1) (k := l.2)).mpr ⟨mem, rfl⟩
  have other : target N l ≠ i := by
    intro hits
    exact unnamed_of_free tree.toShape free l.1 l.2 (hits ▸ names)
  have away : l.1 ≠ i := by
    intro same
    have dir := (mem_places.mp mem).2.1
    rw [same, free] at dir
    cases dir
  unfold weight
  rw [if_neg other, if_neg (fun holds => away holds.1), Nat.add_zero]

theorem tree_new (tree : TreeOk n N slack) (lt : i < n) (pos : i ≠ 0) (free : (N i).type = 0)
    {v : Node} (fresh : Fresh n i v) : TreeOk n (update N i v) (update slack i v.nlink16) := by
  have names := @names_new n N i free v fresh
  have notRoot : rootIno ≠ i := by
    rintro rfl
    rw [tree.root] at free
    cases free
  have known : ∀ d k j, Names N d k j → j ≠ i ∧ d ≠ i := by
    intro d k j found
    constructor
    · rintro rfl
      exact unnamed_of_free tree.toShape free d k found
    rintro rfl
    have dir := found.1
    rw [free] at dir
    cases dir
  refine ⟨⟨?_, ?_, ?_, ?_, ?_, ?_, ?_, ?_⟩, ?_⟩
  · intro x beyond
    rw [update_of_ne (by omega)]
    exact tree.bound x beyond
  · rw [update_of_ne (Ne.symm pos), tree.zero]
  · rw [update_of_ne notRoot, tree.root]
  · intro d dir
    unfold parentOf
    by_cases here : d = i
    · subst d
      rw [update_self] at dir ⊢
      exact fresh.dots dir
    rw [update_of_ne here] at dir ⊢
    exact tree.dots d dir
  · unfold parentOf
    rw [update_of_ne notRoot]
    exact tree.top
  · intro d k j found
    rw [names] at found
    obtain ⟨other, away⟩ := known d k j found
    rw [update_of_ne other, update_of_ne away]
    exact tree.entries d k j found
  · intro d k j found dir
    rw [names] at found
    obtain ⟨other, _⟩ := known d k j found
    unfold parentOf
    rw [update_of_ne other] at dir ⊢
    exact tree.child d k j found dir
  · intro d1 k1 d2 k2 j first snd dir
    rw [names] at first snd
    rw [update_of_ne (known d1 k1 j first).1] at dir
    exact tree.once d1 k1 d2 k2 j first snd dir
  intro j live
  rw [links_new tree lt free fresh]
  by_cases here : j = i
  · subst j
    rw [update_self, update_self, links_of_free tree free, Nat.zero_add]
  rw [update_of_ne here] at live
  rw [update_of_ne here, update_of_ne here]
  exact tree.counts j live

theorem tree_free (tree : TreeOk n N slack) (none : links n N i = 0) :
    ∃ slack', TreeOk n (update N i .free) slack' ∧ (∀ j, slack j ≤ slack' j) ∧
      ((∀ k j, ¬ Names N i k j) → slack' = slack) := by
  obtain ⟨notRoot, unnamed, plain⟩ := links_zero tree.bound none
  have names : ∀ d k j, Names (update N i .free) d k j ↔ d ≠ i ∧ Names N d k j := by
    intro d k j
    unfold Names
    by_cases here : d = i
    · subst d
      rw [update_self]
      constructor
      · rintro ⟨never, _⟩
        cases never
      rintro ⟨never, _⟩
      exact absurd rfl never
    rw [update_of_ne here]
    simp [here]
  have bound : ∀ x, n ≤ x → (update N i .free x).type = 0 := by
    intro x beyond
    by_cases here : x = i
    · rw [here, update_self]
      rfl
    rw [update_of_ne here]
    exact tree.bound x beyond
  have other : ∀ d k j, Names N d k j → j ≠ i := by
    rintro d k j found rfl
    exact unnamed d k found
  have gone : ∀ j, ∑ l ∈ places n N, weight N j l = (∑ l ∈ places n (update N i .free), weight (update N i .free) j l) +
        ∑ l ∈ (places n N).filter (fun l => l.1 = i), weight N j l := by
    intro j
    rw [← sum_filter_add_sum_filter_not (places n N) (fun l => l.1 = i), Nat.add_comm]
    congr 1
    have same : places n (update N i .free) = (places n N).filter (fun l => ¬ l.1 = i) := by
      ext l
      rw [mem_filter]
      constructor
      · intro mem
        have found := (names l.1 l.2 _).mp ((names_iff bound).mpr ⟨mem, rfl⟩)
        exact ⟨((names_iff tree.bound).mp found.2).1, found.1⟩
      rintro ⟨mem, away⟩
      have found := (names_iff tree.bound (d := l.1) (k := l.2)).mpr ⟨mem, rfl⟩
      exact ((names_iff bound).mp ((names l.1 l.2 _).mpr ⟨away, found⟩)).1
    rw [same]
    apply sum_congr rfl
    intro l mem
    rw [mem_filter] at mem
    have found := (names_iff tree.bound (d := l.1) (k := l.2)).mpr ⟨mem.1, rfl⟩
    have far : ((N l.1).ent l.2).1 ≠ i := other _ _ _ found
    unfold weight target
    rw [update_of_ne mem.2, update_of_ne far]
  refine ⟨fun j => slack j + ∑ l ∈ (places n N).filter (fun l => l.1 = i), weight N j l, ?_,
    fun _ => Nat.le_add_right _ _, ?_⟩
  · refine ⟨⟨?_, ?_, ?_, ?_, ?_, ?_, ?_, ?_⟩, ?_⟩
    · exact bound
    · by_cases here : 0 = i
      · rw [here, update_self]
        rfl
      · rw [update_of_ne here, tree.zero]
    · rw [update_of_ne (Ne.symm notRoot), tree.root]
    · intro d dir
      by_cases here : d = i
      · rw [here, update_self] at dir
        cases dir
      unfold parentOf
      rw [update_of_ne here] at dir ⊢
      exact tree.dots d dir
    · unfold parentOf
      rw [update_of_ne (Ne.symm notRoot)]
      exact tree.top
    · intro d k j found
      rw [names] at found
      rw [update_of_ne (other d k j found.2), update_of_ne found.1]
      exact tree.entries d k j found.2
    · intro d k j found dir
      rw [names] at found
      unfold parentOf
      rw [update_of_ne (other d k j found.2)] at dir ⊢
      exact tree.child d k j found.2 dir
    · intro d1 k1 d2 k2 j first snd dir
      rw [names] at first snd
      rw [update_of_ne (other d1 k1 j first.2)] at dir
      exact tree.once d1 k1 d2 k2 j first.2 snd.2 dir
    intro j live
    by_cases here : j = i
    · rw [here, update_self] at live
      exact absurd rfl live
    rw [update_of_ne here] at live ⊢
    have count := tree.counts j live
    have split := gone j
    unfold links at count ⊢
    omega
  intro empty
  funext j
  have nothing : (places n N).filter (fun l => l.1 = i) = ∅ := by
    rw [filter_eq_empty_iff]
    intro l mem here
    have found := (names_iff tree.bound (d := l.1) (k := l.2)).mpr ⟨mem, rfl⟩
    rw [here] at found
    exact empty _ _ found
  rw [nothing, sum_empty, Nat.add_zero]

end

/- Removed directories, and looking up names. -/
section
variable {n : Nat} {N : Nodes} {slack : Nat → Nat}
variable {name : List UInt8}

/-- Removed directories are empty. -/
def Swept (N : Nodes) : Prop := ∀ i, Orphan N i → ∀ k j, ¬ Names N i k j

theorem swept_shape {N' : Nodes} (same : SameShape N N') (swept : Swept N) : Swept N' := by
  intro i orphan k j names
  rw [shape_names same] at names
  refine swept i ⟨orphan.1, ?_⟩ k j names
  intro d x named
  exact orphan.2 d x ((shape_names same).mpr named)

theorem swept_addEntry {d k : Nat} {e : Nat × List UInt8} (swept : Swept N) (dir : (N d).type = tDir)
    (vacant : VacantSlot (N d) k) (home : ¬ Orphan N d) : Swept (withEnt N d k e) := by
  have names := @withEnt_names N d k e dir vacant.1 vacant.2.1
  have kept : ∀ d' k' j, Names N d' k' j → Names (withEnt N d k e) d' k' j := by
    intro d' k' j found
    rw [names, if_neg]
    · exact found
    intro same
    obtain ⟨rfl, rfl⟩ := Prod.mk.inj same
    have := vacant.2.2 found.2.2.1
    exact found.2.2.2.2 (found.2.2.2.1.symm.trans this)
  intro i orphan k' j found
  have prev : Orphan N i := ⟨orphan.1, fun d' x named => orphan.2 d' x (kept d' x i named)⟩
  rw [names] at found
  split at found
  · rename_i here
    rw [(Prod.mk.inj here).1] at prev
    exact home prev
  · exact swept i prev k' j found

theorem swept_delEntry {d k j : Nat} (swept : Swept N) (named : Names N d k j)
    (empty : ∀ k' j', ¬ Names N j k' j') : Swept (withEnt N d k (0, [])) := by
  have names := @withEnt_names N d k (0, []) named.1 named.2.1 (by have := named.2.2.1; omega)
  intro i orphan k' j' found
  rw [names] at found
  split at found
  · exact found.2 found.1.symm
  by_cases here : i = j
  · rw [here] at found
    exact empty k' j' found
  refine swept i ⟨orphan.1, ?_⟩ k' j' found
  intro d' x old
  apply orphan.2 d' x
  rw [names, if_neg]
  · exact old
  intro same
  obtain ⟨rfl, rfl⟩ := Prod.mk.inj same
  exact here (old.2.2.2.1.symm.trans named.2.2.2.1)

theorem swept_new {i : Nat} (free : (N i).type = 0) {v : Node} (fresh : Fresh n i v)
    (swept : Swept N) : Swept (update N i v) := by
  intro d orphan k j found
  rw [names_new free fresh] at found
  refine swept d ⟨orphan.1, ?_⟩ k j found
  intro d' x named
  exact orphan.2 d' x ((names_new free fresh).mpr named)

theorem swept_free {i : Nat} (tree : TreeOk n N slack) (none : links n N i = 0)
    (swept : Swept N) : Swept (update N i .free) := by
  obtain ⟨_, _, plain⟩ := links_zero tree.bound none
  have names : ∀ d k j, d ≠ i → (Names (update N i .free) d k j ↔ Names N d k j) := by
    intro d k j other
    unfold Names
    rw [update_of_ne other]
  intro d orphan k j found
  have other : d ≠ i := by
    rintro rfl
    have dir := found.1
    rw [update_self] at dir
    cases dir
  rw [names d k j other] at found
  refine swept d ⟨orphan.1, ?_⟩ k j found
  intro d' x named
  by_cases here : d' = i
  · rw [here] at named
    exact plain x d named found.1
  · exact orphan.2 d' x ((names d' x d here).mpr named)

theorem slot_spec {v : Node} {k : Nat} (found : v.slot name = some k) :
    k < v.count ∧ (v.ent k).1 ≠ 0 ∧ (v.ent k).2 = cname name := by
  have holds := List.find?_some found
  rw [decide_eq_true_eq] at holds
  exact ⟨List.mem_range.mp (List.mem_of_find?_eq_some found), holds⟩

theorem slot_none {v : Node} (absent : v.slot name = none) {k : Nat}
    (below : k < v.count) (used : (v.ent k).1 ≠ 0) : (v.ent k).2 ≠ cname name := by
  intro same
  rw [Node.slot, List.find?_eq_none] at absent
  exact absent k (List.mem_range.mpr below) (decide_eq_true ⟨used, same⟩)

/-- A name leads to an allocated inode, but for the ".." of a removed directory. -/
theorem slot_live (tree : Shape n N) {i k : Nat} (dir : (N i).type = tDir)
    (found : (N i).slot name = some k) : ((N i).ent k).1 < n ∧
      ((N ((N i).ent k).1).type ≠ 0 ∨ (Orphan N i ∧ cname name = dotdot)) := by
  obtain ⟨below, used, same⟩ := slot_spec found
  obtain ⟨_, first, snd, _, up⟩ := tree.dots i dir
  have inside := inside_of_type tree.bound (type_of_dir dir)
  by_cases zero : k = 0
  · rw [zero, first]
    exact ⟨inside, .inl (type_of_dir dir)⟩
  by_cases one : k = 1
  · rw [one] at same ⊢
    refine ⟨up, ?_⟩
    by_cases removed : Orphan N i
    · exact .inr ⟨removed, by rw [← same, snd]⟩
    left
    change (N (parentOf N i)).type ≠ 0
    by_cases root : i = rootIno
    · rw [root, tree.top, tree.root]
      decide
    have named : ∃ d x, Names N d x i := by
      by_contra unnamed
      exact removed ⟨root, fun d x named => unnamed ⟨d, x, named⟩⟩
    obtain ⟨d, x, named⟩ := named
    rw [tree.child d x i named dir]
    exact type_of_dir named.1
  have named : Names N i k ((N i).ent k).1 := ⟨dir, by omega, below, rfl, used⟩
  have live := (tree.entries i k _ named).1
  exact ⟨inside_of_type tree.bound live, .inl live⟩

end

end Xv6Fs
