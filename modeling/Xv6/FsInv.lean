import Xv6.FileSpec
import Xv6.TruncSpec

/- The inodes as the kernel sees them: an inode whose table entry is valid has the contents of
   the entry, any other those on the disk. -/
namespace Xv6Fs
open Xv6 Bytes Outcome Ownership Function

def Cached (s : Fs) (ip : Ip) : Prop := 0 < (s.itable ip).ref ∧ (s.itable ip).valid = true

instance (s : Fs) (ip : Ip) : Decidable (Cached s ip) := inferInstanceAs (Decidable (_ ∧ _))

def view (s : Fs) (i : Nat) : Dinode :=
  ((List.finRange nInode).find? fun ip => Cached s ip ∧ (s.itable ip).inum = i).elim
    (getDinode s.sb s.disk i) fun ip => (s.itable ip).dn

/-- The table has one entry for an inode, and none for a number that is no inode's. -/
structure Table (s : Fs) : Prop where
  unique : ∀ ip jp, 0 < (s.itable ip).ref → 0 < (s.itable jp).ref →
    (s.itable ip).inum = (s.itable jp).inum → ip = jp
  nonneg : ∀ ip, 0 ≤ (s.itable ip).ref
  bounded : ∀ ip, Cached s ip → (s.itable ip).inum < s.sb.ninodes

theorem view_uncached {s : Fs} {i : Nat} (absent : ∀ ip, Cached s ip → (s.itable ip).inum ≠ i) :
    view s i = getDinode s.sb s.disk i := by
  have none : (List.finRange nInode).find? (fun ip => Cached s ip ∧ (s.itable ip).inum = i) = none := by
    rw [List.find?_eq_none]
    intro ip _ found
    rw [decide_eq_true_eq] at found
    exact absent ip found.1 found.2
  rw [view, none]
  rfl

theorem view_cached {s : Fs} (table : Table s) {ip : Ip} (cached : Cached s ip) :
    view s (s.itable ip).inum = (s.itable ip).dn := by
  unfold view
  cases found : (List.finRange nInode).find? fun jp =>
      Cached s jp ∧ (s.itable jp).inum = (s.itable ip).inum with
  | none =>
    rw [List.find?_eq_none] at found
    exact absurd (decide_eq_true ⟨cached, rfl⟩) (found ip (List.mem_finRange ip))
  | some jp =>
    have holds := List.find?_some found
    rw [decide_eq_true_eq] at holds
    have same := table.unique jp ip holds.1.1 cached.1 holds.2
    rw [same]
    rfl

theorem view_cases {s : Fs} (table : Table s) (i : Nat) :
    (∃ ip, Cached s ip ∧ (s.itable ip).inum = i ∧ view s i = (s.itable ip).dn) ∨
    ((∀ ip, Cached s ip → (s.itable ip).inum ≠ i) ∧ view s i = getDinode s.sb s.disk i) := by
  by_cases found : ∃ ip, Cached s ip ∧ (s.itable ip).inum = i
  · obtain ⟨ip, cached, same⟩ := found
    refine .inl ⟨ip, cached, same, ?_⟩
    rw [← same]
    exact view_cached table cached
  have absent : ∀ ip, Cached s ip → (s.itable ip).inum ≠ i := fun ip cached same => found ⟨ip, cached, same⟩
  exact .inr ⟨absent, view_uncached absent⟩

/-- The block ownership invariant. -/
structure Inv (s : Fs) : Prop where
  table : Table s
  owned : Owned s.sb (view s) s.disk
  full : ∀ i < s.sb.ninodes, (view s i).type ≠ 0 → Full s.disk (view s i)

structure Held (s : Fs) (ip : Ip) : Prop where
  cached : Cached s ip
  live : (s.itable ip).dn.type ≠ 0

section
variable {s t : Fs}
variable {ip : Ip}

theorem owned_agree {sb : Superblock} {dns dns' : Nat → Dinode} {d : Disk} (owned : Owned sb dns d)
    (agree : ∀ i < sb.ninodes, dns' i = dns i) : Owned sb dns' d := by
  apply owned_congr owned
  apply ownOf_congr
  · intro i inside
    rw [agree i inside]
  intro i inside _ slot
  rw [agree i inside]

theorem inv_intro (dns : Nat → Dinode) (agree : ∀ i < t.sb.ninodes, view t i = dns i)
    (table : Table t) (owned : Owned t.sb dns t.disk)
    (full : ∀ i < t.sb.ninodes, (dns i).type ≠ 0 → Full t.disk (dns i)) : Inv t where
  table := table
  owned := owned_agree owned agree
  full := by
    intro i inside live
    rw [agree i inside] at live ⊢
    exact full i inside live

section
variable (inv : Inv s) (held : Held s ip)
include inv held

theorem held_bounded : (s.itable ip).inum < s.sb.ninodes := inv.table.bounded ip held.cached

theorem held_view : view s (s.itable ip).inum = (s.itable ip).dn := view_cached inv.table held.cached

theorem held_full : Full s.disk (s.itable ip).dn := by
  have full := inv.full _ (held_bounded inv held)
  rw [held_view inv held] at full
  exact full held.live

theorem held_update : update (view s) (s.itable ip).inum (s.itable ip).dn = view s := by
  rw [update_eq_self_iff, held_view inv held]

theorem held_owned : Owned s.sb (update (view s) (s.itable ip).inum (s.itable ip).dn) s.disk := by
  rw [held_update inv held]
  exact inv.owned

end

theorem cached_put (ip : Ip) (d : Disk) (dn : Dinode) (jp : Ip) : (Cached (s.put ip d dn) jp ↔ Cached s jp) ∧
      ((s.put ip d dn).itable jp).inum = (s.itable jp).inum ∧ ((s.put ip d dn).itable jp).ref = (s.itable jp).ref := by
  by_cases same : jp = ip
  · subst jp
    unfold Cached
    rw [put_entry]
    exact ⟨Iff.rfl, rfl, rfl⟩
  unfold Cached
  rw [put_other s ip d dn same]
  exact ⟨Iff.rfl, rfl, rfl⟩

theorem held_put (held : Held s ip) {d : Disk} {dn : Dinode} (live : dn.type ≠ 0) : Held (s.put ip d dn) ip := by
  refine ⟨(cached_put ip d dn ip).1.mpr held.cached, ?_⟩
  rw [put_dn]
  exact live

theorem table_put (table : Table s) (ip : Ip) (d : Disk) (dn : Dinode) : Table (s.put ip d dn) := by
  constructor
  · intro jp kp first snd same
    rw [(cached_put ip d dn jp).2.1, (cached_put ip d dn kp).2.1] at same
    rw [(cached_put ip d dn jp).2.2] at first
    rw [(cached_put ip d dn kp).2.2] at snd
    exact table.unique jp kp first snd same
  · intro jp
    rw [(cached_put ip d dn jp).2.2]
    exact table.nonneg jp
  intro jp cached
  rw [(cached_put ip d dn jp).2.1]
  exact table.bounded jp ((cached_put ip d dn jp).1.mp cached)

theorem view_put (table : Table s) (cached : Cached s ip) {d : Disk} (dn : Dinode)
    {i : Nat} (dinodes : i ≠ (s.itable ip).inum → getDinode s.sb d i = getDinode s.sb s.disk i) :
    view (s.put ip d dn) i = update (view s) (s.itable ip).inum dn i := by
  have table' := table_put table ip d dn
  by_cases here : i = (s.itable ip).inum
  · have entry := view_cached table' ((cached_put ip d dn ip).1.mpr cached)
    rw [(cached_put ip d dn ip).2.1, put_dn] at entry
    rw [here, update_self, entry]
  rw [update_of_ne here]
  rcases view_cases table i with ⟨jp, active, same, value⟩ | ⟨absent, value⟩
  · have other : jp ≠ ip := by
      rintro rfl
      exact here same.symm
    have entry := view_cached table' ((cached_put ip d dn jp).1.mpr active)
    rw [(cached_put ip d dn jp).2.1, same, put_other s ip d dn other] at entry
    rw [value, entry]
  rw [value, ← dinodes here]
  apply view_uncached
  intro jp active
  rw [(cached_put ip d dn jp).2.1]
  exact absent jp ((cached_put ip d dn jp).1.mp active)

theorem inv_put (inv : Inv s) (cached : Cached s ip) {d : Disk} {dn : Dinode}
    (owned : Owned s.sb (update (view s) (s.itable ip).inum dn) d)
    (dinodes : ∀ i < s.sb.ninodes, i ≠ (s.itable ip).inum → getDinode s.sb d i = getDinode s.sb s.disk i)
    (full : ∀ i < s.sb.ninodes, (update (view s) (s.itable ip).inum dn i).type ≠ 0 →
      Full d (update (view s) (s.itable ip).inum dn i)) : Inv (s.put ip d dn) := by
  apply inv_intro _ _ (table_put inv.table ip d dn) owned full
  intro i inside
  exact view_put inv.table cached dn (dinodes i inside)

end

/- Changes of the disk that keep the contents of files. -/
section
variable {sb : Superblock} {dns : Nat → Dinode} {d d' : Disk}

theorem contents_of_data (owned : Owned sb dns d) (same : ∀ b, sb.Data b → d' b = d b) {i : Nat}
    (lt : i < sb.ninodes) (live : (dns i).type ≠ 0) : (∀ bn, fileBlock d' (dns i) bn = fileBlock d (dns i) bn) ∧
      ∀ x, byteAt d' (dns i) x = byteAt d (dns i) x := by
  have blocks : ∀ bn, fileBlock d' (dns i) bn = fileBlock d (dns i) bn := by
    intro bn
    rw [fileBlock_eq, fileBlock_eq]
    cases fileSlot bn with
    | none => rfl
    | some slot =>
      cases slot with
      | addr k => rfl
      | word w =>
        simp only [Option.elim_some, slotOf]
        split
        · rfl
        · rw [same _ (indirect_data owned lt live ‹_›)]
  refine ⟨blocks, ?_⟩
  intro x
  rw [byteAt, byteAt, blocks]
  split
  · rfl
  rename_i nz
  obtain ⟨slot, _, place⟩ := fileBlock_slot nz
  rw [← place]
  rw [same _ (owned_slot owned lt live (by rwa [place]))]

theorem putDinode_data {i : Nat} (lt : i < sb.ninodes) (dn : Dinode) {b : Nat}
    (data : sb.Data b) : putDinode sb d i dn b = d b := by
  have low := sb.iblock_lt lt
  have above := data.1
  have below := sb.bmapstart_lt
  rw [putDinode, update_of_ne (by omega)]

theorem full_congr {dn : Dinode} (full : Full d dn)
    (blocks : ∀ bn, fileBlock d dn bn ≠ 0 → fileBlock d' dn bn = fileBlock d dn bn) : Full d' dn := by
  intro bn below
  have nz := full bn below
  rwa [blocks bn nz]

end

section
variable {s : Fs} {ip : Ip}

theorem getDinode_putDinode_other {sb : Superblock} {d : Disk} {i j : Nat} {dn : Dinode}
    (other : j ≠ i) : getDinode sb (putDinode sb d i dn) j = getDinode sb d j := by
  rw [getDinode_putDinode, update_of_ne other]

theorem inv_put_iupdate (inv : Inv s) (cached : Cached s ip) {d : Disk} {dn : Dinode}
    (owned : Owned s.sb (update (view s) (s.itable ip).inum dn) d)
    (dinodes : ∀ i < s.sb.ninodes, i ≠ (s.itable ip).inum → getDinode s.sb d i = getDinode s.sb s.disk i)
    (full : ∀ i < s.sb.ninodes, (update (view s) (s.itable ip).inum dn i).type ≠ 0 →
      Full d (update (view s) (s.itable ip).inum dn i)) :
    Inv (s.put ip (putDinode s.sb d (s.itable ip).inum dn) dn) := by
  have bound := inv.table.bounded ip cached
  apply inv_put inv cached (owned_putDinode owned bound dn)
  · intro i inside other
    rw [getDinode_putDinode_other other, dinodes i inside other]
  intro i inside live
  apply full_congr (full i inside live)
  intro bn _
  exact (contents_of_data owned (fun b => putDinode_data bound dn) inside live).1 bn

theorem full_kept (inv : Inv s) {d : Disk} (dn : Dinode) {dn' : Dinode}
    (kept : ∀ j < s.sb.ninodes, (update (view s) (s.itable ip).inum dn j).type ≠ 0 →
      ∀ bn, fileBlock s.disk (update (view s) (s.itable ip).inum dn j) bn ≠ 0 →
        fileBlock d (update (view s) (s.itable ip).inum dn' j) bn =
          fileBlock s.disk (update (view s) (s.itable ip).inum dn j) bn)
    (own : dn'.type ≠ 0 → Full d dn') {e : Disk} (disk : e = d) {en : Dinode} (entry : en = dn') :
    ∀ j < s.sb.ninodes, (update (view s) (s.itable ip).inum en j).type ≠ 0 →
      Full e (update (view s) (s.itable ip).inum en j) := by
  subst e en
  intro j inside live
  by_cases here : j = (s.itable ip).inum
  · subst j
    rw [update_self] at live ⊢
    exact own live
  have blocks := kept j inside
  rw [update_of_ne here, update_of_ne here] at blocks
  rw [update_of_ne here] at live ⊢
  exact full_congr (inv.full j inside live) (blocks live)

theorem inv_bmap (inv : Inv s) (held : Held s ip) (bn : Nat) : Ends (bmap ip bn) s (fun _ t => Inv t)
      (fun msg => msg = "bmap: out of range" ∨ (bn < maxFile ∧ msg = "balloc: out of blocks" ∧
        (freeBlocks s.sb s.disk).card < bmapCost s.disk (s.itable ip).dn bn)) := by
  by_cases range : bn < maxFile
  · have spec := bmap_spec s ip (held_bounded inv held) held.live (held_owned inv held) range
    rw [put_self] at spec
    apply ends_mono spec
    · rintro b t ⟨d', dn', rfl, mapped, _⟩
      apply inv_put inv held.cached mapped.owned (fun j inside _ => mapped.dinodes j inside)
      apply full_kept inv _ mapped.grown.blocks _ rfl rfl
      intro _ bm below
      have size : dn'.size = (s.itable ip).dn.size := by rw [mapped.fields]
      rw [size] at below
      have prev := held_full inv held bm below
      rwa [grown_kept (held_bounded inv held) held.live mapped.grown prev]
    intro msg panic
    exact .inr ⟨range, panic⟩
  unfold bmap
  rw [dif_neg (by simp only [maxFile] at range; omega), if_neg (by simp only [maxFile] at range; omega)]
  exact ends_throw (.inl rfl)

theorem inv_readi (inv : Inv s) (held : Held s ip) (dst : Buffer) (off : Nat) {n : Nat}
    (small : n < 0x100000000) : ∃ r, readi ip dst off n s = .ok (r, s) := by
  obtain ⟨r, res, _⟩ := readi_ok dst off (held_full inv held) small
  exact ⟨r, res⟩

theorem inv_writei (inv : Inv s) (held : Held s ip) (src : Buffer) (off : Nat) {n : Nat}
    (small : n < 0x100000000) : Ends (writei ip src off n) s (fun _ t => Inv t)
      (fun msg => msg = "balloc: out of blocks" ∧
        (freeBlocks s.sb s.disk).card < writeiNeed s.disk (s.itable ip).dn off n) := by
  have spec := writei_spec s ip src off n rfl (held_bounded inv held) held.live small (held_owned inv held)
  rw [put_self] at spec
  apply ends_better spec _
  rintro r t (⟨_, _, rfl⟩ | ⟨accepted, d', dn', e, k, cost, rfl, ended, pos, written, size, -⟩)
  · exact inv
  have type : dn'.type = e.type := by rw [size]; rfl
  have addrs : dn'.addrs = e.addrs := by rw [size]; rfl
  have num := held_bounded inv held
  apply inv_put_iupdate inv held.cached (owned_fields written.owned type addrs)
    (fun j inside _ => written.dinodes j inside)
  apply full_kept inv (s.itable ip).dn _ _ rfl rfl
  · intro j inside live bn nz
    have kept := written.kept j inside live bn nz
    rw [← kept]
    by_cases here : j = (s.itable ip).inum
    · subst j
      rw [update_self, update_self, fileBlock_addrs addrs]
    · rw [update_of_ne here, update_of_ne here]
  intro _ bn below
  rw [fileBlock_addrs addrs]
  by_cases old : bn * bSize < (s.itable ip).dn.size.toNat
  · have prev := held_full inv held bn old
    rwa [written_kept num held.live written prev]
  -- past the old size the blocks are those the loop went through
  have start : off ≤ (s.itable ip).dn.size.toNat := by
    unfold writeiRefused at accepted
    omega
  have stop : bn * bSize < off + r.toNat := by
    rw [size, Dinode.setSize, UInt32.toNat_ofNat'] at below
    have := Nat.mod_le (max (s.itable ip).dn.size.toNat (off + r.toNat)) (2 ^ 32)
    omega
  have present := ended.blocks (bn * bSize) (by omega) stop
  rwa [Nat.mul_div_cancel bn (by decide)] at present

theorem onlyMap_contents {sb : Superblock} {d d' : Disk} (only : OnlyMap sb d d') :
    ∀ b, sb.Data b → d' b = d b := fun _ data => onlyMap_data only data

theorem inv_itrunc (inv : Inv s) (held : Held s ip) : Ends (itrunc ip) s
      (fun _ t => ∃ d', t = s.put ip (putDinode s.sb d' (s.itable ip).inum
          (s.itable ip).dn.truncated) (s.itable ip).dn.truncated ∧ OnlyMap s.sb s.disk d' ∧
        Owned s.sb (update (view s) (s.itable ip).inum (s.itable ip).dn.truncated) d' ∧ Inv t) (fun _ => False) := by
  have spec := itrunc_spec s ip rfl (held_bounded inv held) held.live (held_owned inv held)
  rw [put_self] at spec
  apply ends_better spec _
  rintro _ t ⟨d', rfl, only, owned⟩
  refine ⟨d', rfl, only, owned, ?_⟩
  apply inv_put_iupdate inv held.cached owned (fun j inside _ => onlyMap_dinode only inside)
  intro j inside live
  by_cases here : j = (s.itable ip).inum
  · subst j
    rw [update_self]
    intro bn below
    exact absurd below (Nat.not_lt_zero _)
  rw [update_of_ne here] at live ⊢
  apply full_congr (inv.full j inside live)
  intro bn _
  exact (contents_of_data inv.owned (onlyMap_contents only) inside live).1 bn

end

end Xv6Fs
