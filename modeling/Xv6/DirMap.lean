import Mathlib
import Xv6.Boot

/- A directory is a finite map from names to inode numbers. -/
namespace Xv6Fs
open Xv6 Bytes Outcome Function

namespace Node

/-- The names of the entries in use are different. -/
def Distinct (n : Node) : Prop := ∀ j < n.count, ∀ k < n.count, (n.ent j).1 ≠ 0 → (n.ent k).1 ≠ 0 →
  (n.ent j).2 = (n.ent k).2 → j = k

variable {n : Node} {name : List UInt8} {i k : Nat} {e : Nat × List UInt8}

theorem slot_iff (distinct : n.Distinct) :
    n.slot name = some k ↔ k < n.count ∧ (n.ent k).1 ≠ 0 ∧ (n.ent k).2 = cname name := by
  rw [slot, List.find?_range_eq_some]
  simp only [decide_eq_true_eq, List.mem_range, Bool.not_eq_true', decide_eq_false_iff_not]
  constructor
  · rintro ⟨here, below, -⟩
    exact ⟨below, here⟩
  rintro ⟨below, here⟩
  refine ⟨here, below, fun j earlier there => ?_⟩
  have same := distinct j (by omega) k below there.1 here.1 (there.2.trans here.2.symm)
  omega

theorem lookup_iff (distinct : n.Distinct) : n.lookup name = some i ↔
    ∃ k < n.count, (n.ent k).1 ≠ 0 ∧ (n.ent k).2 = cname name ∧ (n.ent k).1 = i := by
  rw [lookup, Option.map_eq_some_iff]
  constructor
  · rintro ⟨k, slot, rfl⟩
    obtain ⟨below, used, named⟩ := (slot_iff distinct).mp slot
    exact ⟨k, below, used, named, rfl⟩
  rintro ⟨k, below, used, named, rfl⟩
  exact ⟨k, (slot_iff distinct).mpr ⟨below, used, named⟩, rfl⟩

theorem unnamed (none : n.slot name = none) {j : Nat} (below : j < n.count) (used : (n.ent j).1 ≠ 0) :
    (n.ent j).2 ≠ cname name := by
  rw [slot, List.find?_eq_none] at none
  intro named
  exact none j (List.mem_range.mpr below) (decide_eq_true ⟨used, named⟩)

theorem lookup_add (distinct : n.Distinct) (none : n.slot name = none) (near : k ≤ n.count)
    (empty : k < n.count → (n.ent k).1 = 0) (pos : i ≠ 0) :
    (n.setEnt k (i, cname name)).Distinct ∧ ∀ name', (n.setEnt k (i, cname name)).lookup name' =
      if cname name = cname name' then some i else n.lookup name' := by
  have new : ∀ j < n.count, (n.ent j).1 ≠ 0 → (n.ent j).2 ≠ cname name := fun j below used => unnamed none below used
  have after : (n.setEnt k (i, cname name)).Distinct := by
    intro a first b snd
    simp only [setEnt, update_apply] at *
    grind [Distinct]
  refine ⟨after, fun name' => Option.ext fun v => ?_⟩
  have prev : n.lookup name' = some v ↔ _ := lookup_iff distinct
  rw [lookup_iff after]
  simp only [setEnt, update_apply]
  grind

theorem lookup_clear (distinct : n.Distinct) (slot : n.slot name = some k) (x : List UInt8) :
    (n.setEnt k (0, x)).Distinct ∧ ∀ name', (n.setEnt k (0, x)).lookup name' =
      if cname name = cname name' then none else n.lookup name' := by
  obtain ⟨below, used, named⟩ := (slot_iff distinct).mp slot
  have after : (n.setEnt k (0, x)).Distinct := by
    intro a first b snd
    simp only [setEnt, update_apply] at *
    grind [Distinct]
  refine ⟨after, fun name' => Option.ext fun v => ?_⟩
  have prev : n.lookup name' = some v ↔ _ := lookup_iff distinct
  rw [lookup_iff after]
  simp only [setEnt, update_apply]
  grind [Distinct]

end Node

section
variable {s : Fs} {dp : Ip}

/-- A directory of whole entries that is locked and has been read. -/
structure Directory (s : Fs) (dp : Ip) : Prop where
  inv : Inv s
  held : Held s dp
  type : (s.itable dp).dn.type = tDir
  whole : (s.itable dp).dn.size.toNat % direntSize = 0

def NamesDiffer (s : Fs) (dp : Ip) : Prop :=
  ∀ j < dirSlots (s.itable dp).dn, ∀ k < dirSlots (s.itable dp).dn,
    (entryAt s.disk (s.itable dp).dn (direntSize * j)).inum ≠ 0 →
    (entryAt s.disk (s.itable dp).dn (direntSize * k)).inum ≠ 0 →
    namecmp (entryAt s.disk (s.itable dp).dn (direntSize * j)).name
      (entryAt s.disk (s.itable dp).dn (direntSize * k)).name = 0 → j = k

def dirMap (s : Fs) (dp : Ip) : List UInt8 → Option Nat := (nodes s (s.itable dp).inum).lookup

/-- dirlookup gives what the map has; it panics only where the inode table is full. -/
def Finds (s : Fs) (dp : Ip) (map : List UInt8 → Option Nat) : Prop := ∀ name, Ends (dirlookup dp name) s
  (fun r t => (r.map fun found => (t.itable found.1).inum) = map name) (fun _ => ∀ jp, (s.itable jp).ref ≠ 0)

theorem namesDiffer_iff (dir : Directory s dp) : NamesDiffer s dp ↔ (nodes s (s.itable dp).inum).Distinct := by
  have num : ∀ v : UInt16, v.toNat ≠ 0 ↔ v ≠ 0 := fun v => by
    rw [not_iff_not, ← UInt16.toNat_inj]
    rfl
  have entry : ∀ k < dirSlots (s.itable dp).dn, (nodeOf s.disk (s.itable dp).dn).ent k = _ :=
    fun k below => ent_of dir.type below
  rw [node_held dir.inv dir.held, Node.Distinct, count_of dir.held.live, NamesDiffer]
  refine forall₂_congr fun j first => forall₂_congr fun k snd => ?_
  rw [entry j first, entry k snd, namecmp_eq_zero, num, num]

theorem got_inum {i : Nat} {jp : Ip} {e : Inode} (got : Got s i jp e) : e.inum = i := by
  cases got with
  | again live num => exact num
  | fresh empty absent => rfl

theorem finds_map (dir : Directory s dp) : Finds s dp (dirMap s dp) := by
  intro name
  apply ends_mono (dirlookup_slot dir.inv dir.held name) _ fun _ panic => panic.2 dir.type dir.whole
  rintro r t ⟨-, ⟨rfl, -, slot⟩ | ⟨jp, k, e, rfl, slot, got, rfl⟩⟩
  · rw [dirMap, Node.lookup, slot]
    rfl
  rw [dirMap, Node.lookup, slot, Option.map_some, setIp_entry, got_inum got]
  rfl

theorem directory_got (dir : Directory s dp) {i : Nat} {jp : Ip} {e : Inode} (got : Got s i jp e) :
    Directory (s.setIp jp e) dp ∧ nodes (s.setIp jp e) = nodes s ∧
      ((s.setIp jp e).itable dp).inum = (s.itable dp).inum ∧ ((s.setIp jp e).itable dp).dn = (s.itable dp).dn := by
  have neutral := neutral_got dir.inv got
  have entry : Cached (s.setIp jp e) dp ∧ ((s.setIp jp e).itable dp).inum = (s.itable dp).inum ∧
      ((s.setIp jp e).itable dp).dn = (s.itable dp).dn := by
    have cached := dir.held.cached
    unfold Cached at cached ⊢
    by_cases here : dp = jp
    · subst here
      rw [setIp_entry]
      cases got with
      | again live num => exact ⟨⟨Int.lt_add_one_iff.mpr live.le, cached.2⟩, rfl, rfl⟩
      | fresh empty absent =>
        rw [empty] at cached
        exact absurd cached.1 (lt_irrefl 0)
    rw [setIp_other e here]
    exact ⟨cached, rfl, rfl⟩
  obtain ⟨cached, inum, dn⟩ := entry
  exact ⟨⟨inv_setIp dir.inv neutral, ⟨cached, dn ▸ dir.held.live⟩, dn ▸ dir.type, dn ▸ dir.whole⟩,
    nodes_setIp dir.inv neutral, inum, dn⟩

theorem directory_write (dir : Directory s dp) {k : Nat} (de : Dirent) (data : List UInt8)
    (place : direntSize * k + direntSize ≤ (s.itable dp).dn.size.toNat ∨
      direntSize * k = (s.itable dp).dn.size.toNat) (length : de.name.length = dirSiz)
    (source : ∀ t < direntSize, (kernel data).byte t = de.bytes.getD t 0)
    (fits : direntSize * k + direntSize ≤ maxFile * bSize) :
    Ends (writei dp (kernel data) (direntSize * k) direntSize) s (fun r t => r = direntSize ∧ Directory t dp ∧
        nodes t (t.itable dp).inum = (nodes s (s.itable dp).inum).setEnt k (de.inum.toNat, cname de.name))
      (fun _ => (freeBlocks s.sb s.disk).card < writeiNeed s.disk (s.itable dp).dn (direntSize * k) direntSize) := by
  apply ends_mono (writeDirent_spec dir.inv dir.held dir.type de place length source) _ (fun _ => And.right)
  rintro r t ⟨all, written⟩
  have accepted : ¬ writeiRefused (s.itable dp).dn (direntSize * k) direntSize := by
    have large : maxFile * bSize < 0x100000000 := by decide
    unfold writeiRefused addU32
    omega
  have count := all accepted rfl
  obtain ⟨inv, d, dn, rfl, type, -, size, -, tree⟩ := written count
  have inum := (cached_put (s := s) dp (putDinode s.sb d (s.itable dp).inum dn) dn dp).2.1
  refine ⟨count, ⟨inv, held_put dir.held (by rw [type]; exact dir.held.live), ?_, ?_⟩, ?_⟩
  · rw [put_dn, type]
    exact dir.type
  · have whole := dir.whole
    rw [put_dn, size]
    simp only [direntSize] at *
    omega
  · rw [tree, inum, update_self]

theorem finds_after {t : Fs} {n : Node} (dir : Directory t dp) (node : nodes t (t.itable dp).inum = n)
    (distinct : n.Distinct) {name : List UInt8} {v : Option Nat} {map : List UInt8 → Option Nat}
    (looked : ∀ name', n.lookup name' = if cname name = cname name' then v else map name') :
    Directory t dp ∧ NamesDiffer t dp ∧ Finds t dp fun name' => if namecmp name name' = 0 then v else map name' := by
  refine ⟨dir, (namesDiffer_iff dir).mpr (node ▸ distinct), ?_⟩
  have same : dirMap t dp = fun name' => if namecmp name name' = 0 then v else map name' := by
    funext name'
    simp only [namecmp_eq_zero]
    rw [dirMap, node, looked]
  exact same ▸ finds_map dir

theorem directory_is_map (dir : Directory s dp) (differ : NamesDiffer s dp) : Finds s dp (dirMap s dp) ∧
    (∀ name inum, 0 < inum → inum < 0x10000 →
      (s.itable dp).dn.size.toNat + direntSize ≤ maxFile * bSize →
      writeiNeed s.disk (s.itable dp).dn (s.itable dp).dn.size.toNat direntSize ≤ (freeBlocks s.sb s.disk).card →
      Ends (dirlink dp name inum) s (fun r t => (r = -1 ↔ dirMap s dp name ≠ none) ∧
          (r = -1 → Unchanged s t ∧ ∀ jp, (t.itable jp).ref = (s.itable jp).ref ∧
            (0 < (s.itable jp).ref → t.itable jp = s.itable jp)) ∧
          (r ≠ -1 → r = 0 ∧ Directory t dp ∧ NamesDiffer t dp ∧
            Finds t dp fun name' => if namecmp name name' = 0 then some inum else dirMap s dp name'))
        (fun _ => ∀ jp, (s.itable jp).ref ≠ 0)) ∧
    ∀ name jp off u, dirlookup dp name s = .ok (some (jp, off), u) →
      ∃ t, writei dp (kernel []) off direntSize u = .ok (direntSize, t) ∧ Directory t dp ∧ NamesDiffer t dp ∧
        Finds t dp fun name' => if namecmp name name' = 0 then none else dirMap s dp name' := by
  have distinct := (namesDiffer_iff dir).mp differ
  refine ⟨finds_map dir, fun name inum positive small room blocks => ?_, fun name jp off u found => ?_⟩
  · apply ends_step (dirlookup_slot dir.inv dir.held name) fun _ panic => panic.2 dir.type dir.whole
    rintro r t ⟨-, ⟨rfl, rfl, slot⟩ | ⟨jp, k, e, rfl, slot, got, rfl⟩⟩
    · have absent : dirMap t dp name = none := by
        rw [dirMap, Node.lookup, slot]
        rfl
      apply get_then
      apply ends_step (emptyFrom_spec (held_full dir.inv dir.held) _ 0 rfl (Nat.zero_le _) _)
        (fun msg ragged => absurd dir.whole ragged.2)
      · rintro off u ⟨rfl, vacant⟩
        have enough := Nat.le_trans (need_vacant (held_full dir.inv dir.held) vacant) blocks
        obtain ⟨k, rfl, near, empty, place⟩ := vacant_slot dir.type vacant
        rw [← node_held dir.inv dir.held] at near empty
        have fits : direntSize * k + direntSize ≤ maxFile * bSize := by omega
        apply ends_step (directory_write dir ⟨UInt16.ofNat inum, strncpy dirSiz name⟩ _ place
          (length_strncpy _ _) (fun _ _ => rfl) fits) fun _ short => absurd enough (Nat.not_le.mpr short)
        rintro r t ⟨rfl, dir', node⟩
        rw [if_neg (not_not.mpr rfl)]
        rw [cname_strncpy, UInt16.toNat_ofNat', Nat.mod_eq_of_lt small] at node
        obtain ⟨after, looked⟩ := Node.lookup_add distinct slot near empty (Nat.pos_iff_ne_zero.mp positive)
        refine ends_pure ⟨?_, by rintro ⟨⟩, fun _ => ⟨rfl, finds_after dir' node after looked⟩⟩
        simp [absent]
      · simp only [direntSize]
        omega
    obtain ⟨e', result, neutral, ref, same⟩ := iput_got dir.inv got
    apply known_then result
    have found : dirMap s dp name ≠ none := by
      rw [dirMap, Node.lookup, slot]
      exact Option.some_ne_none _
    refine ends_pure ⟨by simp [found], fun _ => ⟨⟨nodes_setIp dir.inv neutral, rfl⟩, fun kp => ?_⟩,
      fun failed => absurd rfl failed⟩
    by_cases here : kp = jp
    · rw [here, setIp_entry]
      exact ⟨ref, fun live => same (by rwa [ref])⟩
    rw [setIp_other e' here]
    exact ⟨rfl, fun _ => rfl⟩
  rcases ends_ok (dirlookup_slot dir.inv dir.held name) found with ⟨-, ⟨absurd, -⟩ | ⟨jp', k, e, same, slot, got, rfl⟩⟩
  · cases absurd
  obtain ⟨rfl, rfl⟩ : jp = jp' ∧ off = direntSize * k := by simpa using same
  obtain ⟨dir', tree, inum, dn⟩ := directory_got dir got
  have inside : direntSize * k + direntSize ≤ (s.itable dp).dn.size.toNat := by
    have below := ((Node.slot_iff distinct).mp slot).1
    rw [node_held dir.inv dir.held, count_of dir.held.live, dirSlots_of dir.type] at below
    simp only [direntSize] at *
    omega
  have size := full_size (held_full dir.inv dir.held)
  rw [← dn] at inside
  have none := need_inside (held_full dir'.inv dir'.held) (Nat.mul_mod_right _ _) inside
  have spec := directory_write dir' Dirent.zero [] (Or.inl inside) (by decide)
    (fun x _ => (bytes_zero x).symm) (by rw [dn] at inside; omega)
  rw [tree, inum, none] at spec
  obtain ⟨after, looked⟩ := Node.lookup_clear distinct slot (cname Dirent.zero.name)
  obtain ⟨r, t, result, rfl, dir'', node⟩ := ends_total (ends_worse spec fun msg short => Nat.not_lt_zero _ short)
  exact ⟨t, result, finds_after dir'' node after looked⟩

end

def rootRead : Fs := smallBoot.fs.setIp 0 ⟨rootIno, 1, true, true, getDinode smallSb smallImage rootIno⟩

theorem directory_is_map_links : ∃ t, dirlink 0 [99] 3 rootRead = .ok (0, t) ∧ NamesDiffer t 0 := by
  have neutral : Neutral smallBoot.fs 0 ⟨rootIno, 1, true, true, getDinode smallSb smallImage rootIno⟩ := by
    refine ⟨by decide, fun _ jp other live => ?_, fun _ _ => by decide, fun _ _ => (boot_view rootIno).symm, ?_⟩
    · rw [smallBoot, boot_idle other] at live
      exact absurd live (lt_irrefl 0)
    · exact fun cached => absurd cached (boot_uncached 0)
  have dir : Directory rootRead 0 := by
    refine ⟨inv_setIp (boot_ok small_ok).books.inv neutral, ⟨⟨by decide, rfl⟩, ?_⟩, ?_, ?_⟩
    all_goals decide +kernel
  have differ : NamesDiffer rootRead 0 := by
    unfold NamesDiffer
    decide +kernel
  obtain ⟨r, t, result, found, -, added⟩ := ends_total (ends_worse ((directory_is_map dir differ).2.1 [99] 3
    (by decide) (by decide) (by decide +kernel) (by decide +kernel)) fun _ full => full 1 rfl)
  have absent : dirMap rootRead 0 [99] = none := by
    rw [dirMap, node_held dir.inv dir.held]
    decide +kernel
  have new : r ≠ -1 := fun failed => found.mp failed absent
  obtain ⟨rfl, -, names, -⟩ := added new
  exact ⟨t, result, names⟩

end Xv6Fs
