import Xv6.FsInv

/- What iget, ialloc and iput do to the inode table. -/
namespace Xv6Fs
open Xv6 Bytes Outcome Ownership Function

section
variable {s : Fs} {ip : Ip}
variable {e : Inode} {i : Nat}

theorem setIp_entry (e : Inode) : (s.setIp ip e).itable ip = e := update_self _ _ _

theorem setIp_other {jp : Ip} (e : Inode) (other : jp ≠ ip) :
    (s.setIp ip e).itable jp = s.itable jp := update_of_ne other _ _

inductive Got (s : Fs) (inum : Nat) (ip : Ip) : Inode → Prop where
  | again (live : 0 < (s.itable ip).ref) (number : (s.itable ip).inum = inum) :
    Got s inum ip ((s.itable ip).setRef ((s.itable ip).ref + 1))
  | fresh (empty : (s.itable ip).ref = 0)
      (absent : ∀ jp, 0 < (s.itable jp).ref → (s.itable jp).inum ≠ inum) :
    Got s inum ip { s.itable ip with inum := inum, ref := 1, valid := false }

theorem iget_spec (s : Fs) (inum : Nat) : Ends (iget inum) s (fun ip t => ∃ e, Got s inum ip e ∧ t = s.setIp ip e)
      (fun msg => msg = "iget: no inodes" ∧ ∀ jp, (s.itable jp).ref ≠ 0) := by
  apply get_then
  cases found : (List.finRange nInode).find? fun ip =>
      0 < (s.itable ip).ref ∧ (s.itable ip).inum = inum with
  | some ip =>
    have holds := List.find?_some found
    rw [decide_eq_true_eq] at holds
    apply modify_then
    exact ends_pure ⟨_, Got.again holds.1 holds.2, rfl⟩
  | none =>
    rw [List.find?_eq_none] at found
    cases free : (List.finRange nInode).find? fun ip => (s.itable ip).ref = 0 with
    | none =>
      refine ends_throw ⟨rfl, fun jp unused => ?_⟩
      exact List.find?_eq_none.mp free jp (List.mem_finRange jp) (decide_eq_true unused)
    | some ip =>
      have holds := List.find?_some free
      rw [decide_eq_true_eq] at holds
      apply modify_then
      refine ends_pure ⟨_, Got.fresh holds ?_, rfl⟩
      intro jp live same
      exact found jp (List.mem_finRange jp) (decide_eq_true ⟨live, same⟩)

structure Neutral (s : Fs) (ip : Ip) (e : Inode) : Prop where
  nonneg : 0 ≤ e.ref
  apart : 0 < e.ref → ∀ jp, jp ≠ ip → 0 < (s.itable jp).ref → (s.itable jp).inum ≠ e.inum
  bounded : 0 < e.ref → e.valid = true → e.inum < s.sb.ninodes
  enters : 0 < e.ref → e.valid = true → e.dn = view s e.inum
  leaves : Cached s ip → ¬ (0 < e.ref ∧ e.valid = true ∧ e.inum = (s.itable ip).inum) →
    getDinode s.sb s.disk (s.itable ip).inum = (s.itable ip).dn

theorem table_setIp (table : Table s) (neutral : Neutral s ip e) : Table (s.setIp ip e) := by
  constructor
  · intro jp kp first snd same
    by_cases here : jp = ip
    · by_cases there : kp = ip
      · rw [here, there]
      rw [here, setIp_entry, setIp_other e there] at same
      rw [here, setIp_entry] at first
      rw [setIp_other e there] at snd
      exact absurd same.symm (neutral.apart first kp there snd)
    rw [setIp_other e here] at first same
    by_cases there : kp = ip
    · rw [there, setIp_entry] at snd same
      exact absurd same (neutral.apart snd jp here first)
    rw [setIp_other e there] at snd same
    exact table.unique jp kp first snd same
  · intro jp
    by_cases here : jp = ip
    · rw [here, setIp_entry]
      exact neutral.nonneg
    rw [setIp_other e here]
    exact table.nonneg jp
  intro jp cached
  unfold Cached at cached
  by_cases here : jp = ip
  · rw [here, setIp_entry] at cached ⊢
    exact neutral.bounded cached.1 cached.2
  rw [setIp_other e here] at cached ⊢
  exact table.bounded jp cached

theorem view_setIp (table : Table s) (neutral : Neutral s ip e) (i : Nat) : view (s.setIp ip e) i = view s i := by
  have table' := table_setIp table neutral
  by_cases new : 0 < e.ref ∧ e.valid = true ∧ e.inum = i
  · obtain ⟨live, valid, num⟩ := new
    have cached : Cached (s.setIp ip e) ip := by
      unfold Cached
      rw [setIp_entry]
      exact ⟨live, valid⟩
    have value := view_cached table' cached
    rw [setIp_entry, num] at value
    rw [value, neutral.enters live valid, num]
  have others : ∀ jp, Cached (s.setIp ip e) jp → ((s.setIp ip e).itable jp).inum = i →
      jp ≠ ip ∧ Cached s jp ∧ (s.itable jp).inum = i := by
    intro jp cached num
    unfold Cached at cached
    by_cases here : jp = ip
    · rw [here, setIp_entry] at cached num
      exact absurd ⟨cached.1, cached.2, num⟩ new
    rw [setIp_other e here] at cached num
    exact ⟨here, cached, num⟩
  rcases view_cases table i with ⟨jp, cached, num, value⟩ | ⟨absent, value⟩
  · by_cases here : jp = ip
    · -- the inode's entry goes away
      subst jp
      have disk := neutral.leaves cached (by rw [num]; exact new)
      rw [value, ← disk, num]
      apply view_uncached
      intro kp active same
      obtain ⟨other, active', same'⟩ := others kp active same
      exact other (table.unique kp ip active'.1 cached.1 (by rw [same', num]))
    have cached' : Cached (s.setIp ip e) jp := by
      unfold Cached
      rw [setIp_other e here]
      exact cached
    have value' := view_cached table' cached'
    rw [setIp_other e here, num] at value'
    rw [value', value]
  rw [value]
  apply view_uncached
  intro jp active same
  obtain ⟨_, active', same'⟩ := others jp active same
  exact absent jp active' same'

theorem inv_setIp (inv : Inv s) (neutral : Neutral s ip e) : Inv (s.setIp ip e) := by
  apply inv_intro (view s) _ (table_setIp inv.table neutral) inv.owned inv.full
  intro i _
  exact view_setIp inv.table neutral i

theorem neutral_got (inv : Inv s) {inum : Nat} (got : Got s inum ip e) : Neutral s ip e := by
  cases got with
  | again live num =>
    constructor
    · change 0 ≤ (s.itable ip).ref + 1
      omega
    · intro _ jp other active same
      exact other (inv.table.unique jp ip active live same)
    · intro _ valid
      exact inv.table.bounded ip ⟨live, valid⟩
    · intro _ valid
      exact (view_cached inv.table ⟨live, valid⟩).symm
    intro cached gone
    refine absurd ⟨?_, cached.2, rfl⟩ gone
    change 0 < (s.itable ip).ref + 1
    omega
  | fresh empty absent =>
    constructor
    · exact Int.one_nonneg
    · intro _ jp _ active
      exact absent jp active
    · intro _ valid
      cases valid
    · intro _ valid
      cases valid
    intro cached
    have live := cached.1
    omega

/- Allocating an inode. -/

def Fs.mark (s : Fs) (i : Nat) (type : UInt16) : Fs :=
  s.setDisk (putDinode s.sb s.disk i (blankDinode type))

theorem iallocFrom_spec (s : Fs) (type : UInt16) (fuel inum : Nat) : Ends (iallocFrom type fuel inum) s
      (fun ip t => ∃ i, inum ≤ i ∧ i < s.sb.ninodes ∧ (getDinode s.sb s.disk i).type = 0 ∧
        ∃ e, Got (s.mark i type) i ip e ∧ t = (s.mark i type).setIp ip e)
      (fun msg => msg = "ialloc: no inodes" ∨ msg = "iget: no inodes") := by
  induction fuel generalizing inum with
  | zero => exact ends_throw (.inl rfl)
  | succ fuel ih =>
    apply get_then
    apply ends_ite
    · intro inside
      apply ends_ite
      · intro free
        apply modify_then
        apply ends_mono (iget_spec (s.mark inum type) inum)
        · intro ip t got
          exact ⟨inum, Nat.le_refl inum, inside, free, got⟩
        intro msg panic
        exact .inr panic.1
      intro _
      apply ends_better (ih (inum + 1)) _
      rintro ip t ⟨i, above, rest⟩
      exact ⟨i, by omega, rest⟩
    intro _
    exact ends_throw (.inl rfl)

theorem ialloc_spec (s : Fs) (type : UInt16) : Ends (ialloc type) s
      (fun ip t => ∃ i, 1 ≤ i ∧ i < s.sb.ninodes ∧ (getDinode s.sb s.disk i).type = 0 ∧
        ∃ e, Got (s.mark i type) i ip e ∧ t = (s.mark i type).setIp ip e)
      (fun msg => msg = "ialloc: no inodes" ∨ msg = "iget: no inodes") :=
  iallocFrom_spec s type s.sb.ninodes 1

theorem owned_blank {sb : Superblock} {dns : Nat → Dinode} {d : Disk} (owned : Owned sb dns d)
    (free : (dns i).type = 0) (type : UInt16) : Owned sb (update dns i (blankDinode type)) d := by
  apply owned_congr owned
  funext l
  obtain ⟨j, slot⟩ := l
  unfold ownOf
  by_cases same : j = i
  · subst j
    have none : slotOf d (blankDinode type) slot = 0 := by
      cases slot with
      | addr k => rfl
      | word w => rfl
    simp only [update_self]
    rw [if_neg (by simp [none]), if_neg (by simp [free])]
  · simp only [update_of_ne same]

theorem table_mark (table : Table s) (i : Nat) (type : UInt16) : Table (s.mark i type) :=
  ⟨table.unique, table.nonneg, table.bounded⟩

theorem view_mark (table : Table s) (type : UInt16) (j : Nat) : view (s.mark i type) j =
      if j = i ∧ (∀ ip, Cached s ip → (s.itable ip).inum ≠ i) then blankDinode type else view s j := by
  rcases view_cases table j with ⟨ip, cached, num, value⟩ | ⟨absent, value⟩
  · rw [if_neg]
    · have entry : view (s.mark i type) (s.itable ip).inum = (s.itable ip).dn :=
        view_cached (table_mark table i type) cached
      rw [value, ← num, entry]
    rintro ⟨rfl, none⟩
    exact none ip cached num
  have entry : view (s.mark i type) j =
      getDinode s.sb (putDinode s.sb s.disk i (blankDinode type)) j := view_uncached absent
  rw [entry, getDinode_putDinode]
  by_cases same : j = i
  · subst j
    rw [if_pos ⟨rfl, absent⟩, update_self]
  · rw [if_neg (fun holds => same holds.1), update_of_ne same, value]

theorem inv_mark (inv : Inv s) (lt : i < s.sb.ninodes)
    (free : (getDinode s.sb s.disk i).type = 0) (type : UInt16) : Inv (s.mark i type) := by
  have views := view_mark inv.table (i := i) type
  by_cases absent : ∀ ip, Cached s ip → (s.itable ip).inum ≠ i
  · have prev : (view s i).type = 0 := by rw [view_uncached absent, free]
    have owned := owned_blank inv.owned prev type
    apply inv_intro (update (view s) i (blankDinode type)) _
      (table_mark inv.table i type) (owned_putDinode owned lt _)
    · intro j bounded live
      by_cases same : j = i
      · subst j
        rw [update_self]
        intro bn below
        exact absurd below (Nat.not_lt_zero _)
      rw [update_of_ne same] at live ⊢
      apply full_congr (inv.full j bounded live)
      intro bn _
      exact (contents_of_data inv.owned (fun b => putDinode_data lt _) bounded live).1 bn
    intro j _
    rw [views j]
    by_cases same : j = i
    · subst j
      rw [if_pos ⟨rfl, absent⟩, update_self]
    · rw [if_neg (fun holds => same holds.1), update_of_ne same]
  apply inv_intro (view s) _ (table_mark inv.table i type) (owned_putDinode inv.owned lt _)
  · intro j bounded live
    apply full_congr (inv.full j bounded live)
    intro bn _
    exact (contents_of_data inv.owned (fun b => putDinode_data lt _) bounded live).1 bn
  intro j _
  rw [views j, if_neg (fun holds => absent holds.2)]

theorem inv_ialloc (inv : Inv s) (type : UInt16) : Ends (ialloc type) s (fun _ t => Inv t)
      (fun msg => msg = "ialloc: no inodes" ∨ msg = "iget: no inodes") := by
  apply ends_better (ialloc_spec s type) _
  rintro ip t ⟨i, _, inside, free, e, got, rfl⟩
  have marked := inv_mark inv inside free type
  exact inv_setIp marked (neutral_got marked got)

/- Giving up a reference. -/

def Dinode.dead (dn : Dinode) : Dinode := dn.truncated.setType 0

theorem owned_dead {sb : Superblock} {dns : Nat → Dinode} {d : Disk} {dn : Dinode}
    (owned : Owned sb (update dns i dn.truncated) d) : Owned sb (update dns i dn.dead) d := by
  apply owned_congr owned
  funext l
  obtain ⟨j, slot⟩ := l
  unfold ownOf
  by_cases same : j = i
  · subst j
    have none : slotOf d dn.truncated slot = 0 := by
      cases slot with
      | addr k => rfl
      | word w => rfl
    have dead : dn.dead.type = 0 := rfl
    simp only [update_self]
    rw [if_neg (by simp [dead]), if_neg (by simp [none])]
  · simp only [update_of_ne same]

/-- The inode of entry ip is freed, with its last reference. -/
structure Freed (s : Fs) (ip : Ip) (t : Fs) : Prop where
  inv : Inv t
  sb : t.sb = s.sb
  data : ∀ b, s.sb.Data b → t.disk b = s.disk b
  entry : t.itable = Function.update s.itable ip
    ((((s.itable ip).setDn (s.itable ip).dn.dead).setValid false).setRef 0)
  dinodes : ∀ j < s.sb.ninodes,
    getDinode t.sb t.disk j =
      Function.update (getDinode s.sb s.disk) (s.itable ip).inum (s.itable ip).dn.dead j

theorem freed_intro (inv : Inv s) (held : Held s ip) {d : Disk} (only : OnlyMap s.sb s.disk d)
    (owned : Owned s.sb (update (view s) (s.itable ip).inum (s.itable ip).dn.truncated) d)
    (entry : e = (((s.itable ip).setDn (s.itable ip).dn.dead).setValid false).setRef 0) (disk : Disk)
    (twice : disk = putDinode s.sb (putDinode s.sb d (s.itable ip).inum (s.itable ip).dn.truncated)
      (s.itable ip).inum (s.itable ip).dn.dead) : Freed s ip ((s.put ip disk (s.itable ip).dn.dead).setIp ip e) := by
  have num := held_bounded inv held
  have dinodes : ∀ j < s.sb.ninodes, getDinode s.sb disk j =
      update (getDinode s.sb s.disk) (s.itable ip).inum (s.itable ip).dn.dead j := by
    intro j inside
    rw [twice, getDinode_putDinode, getDinode_putDinode, update_idem]
    by_cases same : j = (s.itable ip).inum
    · rw [same, update_self, update_self]
    · rw [update_of_ne same, update_of_ne same, onlyMap_dinode only inside]
  have data : ∀ b, s.sb.Data b → disk b = s.disk b := by
    intro b area
    rw [twice, putDinode_data num _ area, putDinode_data num _ area, onlyMap_data only area]
  have middle : Inv (s.put ip disk (s.itable ip).dn.dead) := by
    apply inv_put inv held.cached
    · rw [twice]
      exact owned_putDinode (owned_putDinode (owned_dead owned) num _) num _
    · intro j inside other
      rw [dinodes j inside, update_of_ne other]
    intro j inside live
    by_cases here : j = (s.itable ip).inum
    · rw [here, update_self] at live
      exact absurd rfl live
    rw [update_of_ne here] at live ⊢
    apply full_congr (inv.full j inside live)
    intro bn _
    exact (contents_of_data inv.owned data inside live).1 bn
  refine ⟨inv_setIp middle ?_, rfl, data, ?_, dinodes⟩
  · subst entry
    constructor
    · exact Int.le_refl 0
    · intro live
      exact absurd live (lt_irrefl 0)
    · intro live
      exact absurd live (lt_irrefl 0)
    · intro live
      exact absurd live (lt_irrefl 0)
    intro _ _
    rw [put_entry]
    change getDinode s.sb disk (s.itable ip).inum = _
    rw [dinodes _ num, update_self]
    rfl
  rw [entry]
  change update (update s.itable ip _) ip _ = _
  rw [update_idem]

def iputFrees (e : Inode) : Prop := e.ref = 1 ∧ e.valid = true ∧ e.dn.nlink = 0

theorem updIp_put (d : Disk) (dn : Dinode) (f : Inode → Inode) :
    updIp ip f (s.put ip d dn) = .ok ((), (s.put ip d dn).setIp ip (f ((s.itable ip).setDn dn))) := by
  change Except.ok ((), (s.put ip d dn).setIp ip (f ((s.put ip d dn).itable ip))) = _
  rw [put_entry]

theorem updIp_setIp (e : Inode) (f : Inode → Inode) : updIp ip f (s.setIp ip e) = .ok ((), s.setIp ip (f e)) := by
  change Except.ok ((), (s.setIp ip e).setIp ip (f ((s.setIp ip e).itable ip))) = _
  rw [setIp_entry]
  unfold Fs.setIp
  rw [update_idem]

theorem iputLast_spec (inv : Inv s) (held : Held s ip) : Ends (iputLast ip) s (fun _ t => ∃ d, OnlyMap s.sb s.disk d ∧
        Owned s.sb (update (view s) (s.itable ip).inum (s.itable ip).dn.truncated) d ∧
        t = (s.put ip (putDinode s.sb (putDinode s.sb d (s.itable ip).inum
          (s.itable ip).dn.truncated) (s.itable ip).inum (s.itable ip).dn.dead)
          (s.itable ip).dn.dead).setIp ip (((s.itable ip).setDn (s.itable ip).dn.dead).setValid false))
      (fun msg => msg = "deadlock") := by
  apply get_then
  apply ends_ite
  · intro _
    exact ends_throw rfl
  intro _
  apply ends_step (inv_itrunc inv held) (fun _ never => never.elim)
  rintro _ t ⟨d, rfl, only, owned, _⟩
  apply known_then (updDn_put s ip _ _ _)
  apply known_then (iupdate_put s ip _ _)
  exact ends_known (updIp_put _ _ _) ⟨d, only, owned, rfl⟩

theorem iput_spec (inv : Inv s) (live : Cached s ip → (s.itable ip).dn.type ≠ 0) : Ends (iput ip) s
      (fun _ t => (iputFrees (s.itable ip) ∧ Freed s ip t) ∨ (¬ iputFrees (s.itable ip) ∧
          t = s.setIp ip ((s.itable ip).setRef ((s.itable ip).ref - 1)))) (fun msg => msg = "deadlock") := by
  apply get_then
  apply ends_ite
  · intro frees
    have cached : Cached s ip := ⟨by rw [frees.1]; exact Int.one_pos, frees.2.1⟩
    have held : Held s ip := ⟨cached, live cached⟩
    apply ends_bind (iputLast_spec inv held)
    rintro _ t ⟨d, only, owned, rfl⟩
    apply ends_known (updIp_setIp _ _)
    refine .inl ⟨frees, freed_intro inv held only owned ?_ _ rfl⟩
    change Inode.setRef _ ((s.itable ip).ref - 1) = _
    rw [frees.1]
    rfl
  intro stays
  exact ends_known rfl (.inr ⟨stays, rfl⟩)

theorem inv_iput (inv : Inv s) (live : 0 < (s.itable ip).ref)
    (unlinked : Cached s ip → (s.itable ip).dn.type ≠ 0 ∧ (s.itable ip).dn.nlink = 0) :
    Ends (iput ip) s (fun _ t => Inv t) (fun msg => msg = "deadlock") := by
  apply ends_better (iput_spec inv (fun cached => (unlinked cached).1)) _
  rintro _ t (⟨_, freed⟩ | ⟨stays, rfl⟩)
  · exact freed.inv
  apply inv_setIp inv
  constructor
  · change 0 ≤ (s.itable ip).ref - 1
    omega
  · intro _ jp other active same
    exact other (inv.table.unique jp ip active live same)
  · intro _ valid
    exact inv.table.bounded ip ⟨live, valid⟩
  · intro _ valid
    exact (view_cached inv.table ⟨live, valid⟩).symm
  intro cached gone
  have last : (s.itable ip).ref = 1 := by
    by_contra more
    refine gone ⟨?_, cached.2, rfl⟩
    change 0 < (s.itable ip).ref - 1
    omega
  exact absurd ⟨last, cached.2, (unlinked cached).2⟩ stays

end

end Xv6Fs
