import Xv6.Books

/- What the steps of the system calls do to the tree: new link counts, entries and inodes. -/
namespace Xv6Fs
open Xv6 Bytes Outcome Ownership Function

section
variable {s : Fs} {h w : Ip → Nat} {ip : Ip}
variable {dn : Dinode} {d : Disk}

theorem held_of (books : Books s h w) (cached : Cached s ip) : Held s ip :=
  ⟨cached, books.live ip cached⟩

theorem node_held (inv : Inv s) (held : Held s ip) : nodes s (s.itable ip).inum = nodeOf s.disk (s.itable ip).dn := by
  unfold nodes
  rw [if_pos (held_bounded inv held), held_view inv held]

theorem node_cached (books : Books s h w) (cached : Cached s ip) :
    nodes s (s.itable ip).inum = nodeOf s.disk (s.itable ip).dn := node_held books.inv (held_of books cached)

theorem nodeOf_type : (nodeOf d dn).type = dn.type := by
  unfold nodeOf
  split
  · rename_i free
    rw [free]
    rfl
  · rfl

theorem books_put (books : Books s h w) (cached : Cached s ip)
    (inv : Inv (s.put ip (putDinode s.sb d (s.itable ip).inum dn) dn))
    (dinodes : ∀ j < s.sb.ninodes, j ≠ (s.itable ip).inum → getDinode s.sb d j = getDinode s.sb s.disk j)
    (typed : dn.type ≠ 0) (linked : dn.nlink = 0 → 0 < h ip) :
    Books (s.put ip (putDinode s.sb d (s.itable ip).inum dn) dn) h w ∧
      Steady (h + w) s (s.put ip (putDinode s.sb d (s.itable ip).inum dn) dn) ∧
      ∀ j < s.sb.ninodes, view (s.put ip (putDinode s.sb d (s.itable ip).inum dn) dn) j =
        update (view s) (s.itable ip).inum dn j := by
  have num := books.bounded ip cached.1
  have same := cached_put (s := s) ip (putDinode s.sb d (s.itable ip).inum dn) dn
  have disk : ∀ j < s.sb.ninodes, j ≠ (s.itable ip).inum →
      getDinode s.sb (putDinode s.sb d (s.itable ip).inum dn) j = getDinode s.sb s.disk j := by
    intro j inside other
    rw [getDinode_putDinode_other other, dinodes j inside other]
  have views : ∀ j < s.sb.ninodes, view (s.put ip (putDinode s.sb d (s.itable ip).inum dn) dn) j =
      update (view s) (s.itable ip).inum dn j := by
    intro j inside
    exact view_put books.inv.table cached dn (disk j inside)
  have apart : ∀ jp, jp ≠ ip → 0 < (s.itable jp).ref → (s.itable jp).inum ≠ (s.itable ip).inum := by
    intro jp other busy eq
    exact other (books.inv.table.unique jp ip busy cached.1 eq)
  refine ⟨⟨inv, ?_, ?_, ?_, ?_, ?_, ?_⟩, ⟨rfl, ?_⟩, views⟩
  · intro jp active
    rw [(same jp).1] at active
    rw [(same jp).2.1]
    by_cases here : jp = ip
    · rw [here, put_dn]
      change getDinode s.sb (putDinode s.sb d _ dn) _ = dn
      rw [getDinode_putDinode, update_self]
    rw [put_other _ _ _ _ here]
    change getDinode s.sb (putDinode s.sb d _ dn) _ = _
    rw [disk _ (books.bounded jp active.1) (apart jp here active.1)]
    exact books.sync jp active
  · intro jp
    rw [(same jp).2.2]
    exact books.refs jp
  · intro jp active
    rw [(same jp).2.2] at active
    rw [(same jp).2.1]
    exact books.bounded jp active
  · intro jp active
    rw [(same jp).1] at active
    by_cases here : jp = ip
    · rw [here, put_dn]
      exact typed
    rw [put_other _ _ _ _ here]
    exact books.live jp active
  · intro jp pos
    have busy := ref_pos books (.inl pos)
    rw [(same jp).2.1, views _ (books.bounded jp busy)]
    by_cases here : jp = ip
    · rw [here, update_self]
      exact typed
    rw [update_of_ne (apart jp here busy)]
    exact books.held jp pos
  · intro i inside allocated unlinked
    rw [views i inside] at allocated unlinked
    by_cases here : i = (s.itable ip).inum
    · rw [here, update_self] at unlinked
      refine ⟨ip, linked unlinked, ?_, ?_⟩
      · rw [(same ip).2.1, here]
      rw [put_entry]
      exact cached.2
    rw [update_of_ne here] at allocated unlinked
    obtain ⟨jp, pos, named, good⟩ := books.kept i inside allocated unlinked
    have other : jp ≠ ip := by
      rintro rfl
      exact here named.symm
    rw [← put_other s ip (putDinode s.sb d (s.itable ip).inum dn) dn other] at named good
    exact ⟨jp, pos, named, good⟩
  intro jp _
  by_cases here : jp = ip
  · rw [here, put_entry]
    exact ⟨rfl, id⟩
  rw [put_other _ _ _ _ here]
  exact ⟨rfl, id⟩

theorem nodes_put (num : (s.itable ip).inum < s.sb.ninodes)
    (owned : Owned s.sb (update (view s) (s.itable ip).inum dn) d)
    (bytes : ∀ j < s.sb.ninodes, j ≠ (s.itable ip).inum → (view s j).type ≠ 0 →
      ∀ x, byteAt d (view s j) x = byteAt s.disk (view s j) x)
    (views : ∀ j < s.sb.ninodes, view (s.put ip (putDinode s.sb d (s.itable ip).inum dn) dn) j =
        update (view s) (s.itable ip).inum dn j) : nodes (s.put ip (putDinode s.sb d (s.itable ip).inum dn) dn) =
      update (nodes s) (s.itable ip).inum (nodeOf d dn) := by
  funext j
  unfold nodes
  change (if j < s.sb.ninodes then nodeOf (putDinode s.sb d _ dn) (view _ j) else _) = _
  by_cases lt : j < s.sb.ninodes
  · have kept : (update (view s) (s.itable ip).inum dn j).type ≠ 0 → nodeOf (putDinode s.sb d (s.itable ip).inum dn)
          (update (view s) (s.itable ip).inum dn j) =
        nodeOf d (update (view s) (s.itable ip).inum dn j) := by
      intro live
      apply nodeOf_congr
      exact (contents_of_data owned (fun b => putDinode_data num dn) lt live).2
    rw [if_pos lt, views j lt]
    by_cases here : j = (s.itable ip).inum
    · rw [here] at kept ⊢
      rw [update_self] at kept ⊢
      rw [update_self]
      by_cases typed : dn.type = 0
      · rw [nodeOf_free typed, nodeOf_free typed]
      · exact kept typed
    rw [update_of_ne here] at kept ⊢
    rw [update_of_ne here, if_pos lt]
    by_cases typed : (view s j).type = 0
    · rw [nodeOf_free typed, nodeOf_free typed]
    rw [kept typed]
    exact nodeOf_congr (bytes j lt here typed)
  have other : j ≠ (s.itable ip).inum := by omega
  rw [if_neg lt, update_of_ne other, if_neg lt]

theorem updDn_eq (f : Dinode → Dinode) : updDn ip f s = .ok ((), s.put ip s.disk (f (s.itable ip).dn)) := rfl

theorem byteAt_addrs {dn dn' : Dinode} (addrs : dn'.addrs = dn.addrs) (x : Nat) : byteAt d dn' x = byteAt d dn x := by
  unfold byteAt
  rw [fileBlock_addrs addrs]

theorem nodeOf_links {dn dn' : Dinode} (type : dn'.type = dn.type)
    (size : dn'.size = dn.size) (addrs : dn'.addrs = dn.addrs) (live : dn.type ≠ 0) :
    nodeOf d dn' = (nodeOf d dn).setNlink dn'.nlink := by
  have entries : ∀ off, entryAt d dn' off = entryAt d dn off := by
    intro off
    unfold entryAt fileBytes
    simp only [byteAt_addrs addrs]
  unfold nodeOf dirSlots
  rw [type, size, if_neg live, if_neg live]
  simp only [entries]
  rfl

def Node.blank (type : UInt16) (nlink : Int16) : Node := ⟨type, nlink, 0, fun _ => (0, [])⟩

theorem nodeOf_blank (none : dirSlots dn = 0) (live : dn.type ≠ 0) : nodeOf d dn = .blank dn.type dn.nlink := by
  unfold nodeOf Node.blank
  rw [if_neg live, none]
  simp

theorem dirSlots_file (file : dn.type ≠ tDir) : dirSlots dn = 0 := if_neg file

theorem dirSlots_empty (size : dn.size = 0) : dirSlots dn = 0 := by
  unfold dirSlots
  rw [size]
  split
  · rfl
  · rfl

theorem books_itrunc (books : Books s h w) (cached : Cached s ip) (file : (s.itable ip).dn.type ≠ tDir)
    (linked : (s.itable ip).dn.nlink = 0 → 0 < h ip) : Ends (itrunc ip) s
      (fun _ t => Books t h w ∧ nodes t = nodes s ∧ Steady (h + w) s t) (fun _ => False) := by
  have held := held_of books cached
  apply ends_better (inv_itrunc books.inv held) _
  rintro _ t ⟨d, rfl, only, owned, inv⟩
  obtain ⟨kept, steady, views⟩ := books_put books cached inv
    (fun j inside _ => onlyMap_dinode only inside) held.live linked
  refine ⟨kept, ?_, steady⟩
  rw [nodes_put (held_bounded books.inv held) owned _ views]
  · have after : nodeOf d (s.itable ip).dn.truncated = nodes s (s.itable ip).inum := by
      have short : dirSlots (s.itable ip).dn.truncated = 0 := dirSlots_file file
      rw [node_cached books cached, nodeOf_blank (dirSlots_file file) held.live, nodeOf_blank short held.live]
      rfl
    rw [after, update_eq_self]
  intro j inside _ live
  exact (contents_of_data books.inv.owned (onlyMap_contents only) inside live).2

theorem inv_fields (inv : Inv s) (held : Held s ip) (type : dn.type = (s.itable ip).dn.type)
    (size : dn.size = (s.itable ip).dn.size) (addrs : dn.addrs = (s.itable ip).dn.addrs) :
    Inv (s.put ip (putDinode s.sb s.disk (s.itable ip).inum dn) dn) := by
  apply inv_put_iupdate inv held.cached (owned_fields (held_owned inv held) type addrs) (fun _ _ _ => rfl)
  intro j inside live
  by_cases here : j = (s.itable ip).inum
  · rw [here, update_self]
    intro bn below
    rw [size] at below
    rw [fileBlock_addrs addrs]
    exact held_full inv held bn below
  rw [update_of_ne here] at live ⊢
  exact inv.full j inside live

theorem books_relink (books : Books s h w) (cached : Cached s ip) (f : Dinode → Dinode)
    (type : (f (s.itable ip).dn).type = (s.itable ip).dn.type)
    (size : (f (s.itable ip).dn).size = (s.itable ip).dn.size)
    (addrs : (f (s.itable ip).dn).addrs = (s.itable ip).dn.addrs)
    (linked : (f (s.itable ip).dn).nlink = 0 → 0 < h ip) {A : Type} {rest : M A}
    {good : A → Fs → Prop} {bad : String → Prop} (next : ∀ t, Books t h w → Steady (h + w) s t → Cached t ip →
      nodes t = update (nodes s) (s.itable ip).inum ((nodes s (s.itable ip).inum).setNlink (f (s.itable ip).dn).nlink) →
      (∀ jp, jp ≠ ip → t.itable jp = s.itable jp) → t.itable ip = (s.itable ip).setDn (f (s.itable ip).dn) →
      t.disk = putDinode s.sb s.disk (s.itable ip).inum (f (s.itable ip).dn) → Ends rest t good bad) :
    Ends (do updDn ip f; iupdate ip; rest) s good bad := by
  have held := held_of books cached
  have owned := owned_fields (held_owned books.inv held) type addrs
  have typed : (f (s.itable ip).dn).type ≠ 0 := type ▸ held.live
  have inv := inv_fields books.inv held type size addrs
  obtain ⟨kept, steady, views⟩ := books_put books cached inv (fun _ _ _ => rfl) typed linked
  apply known_then (updDn_eq f)
  apply known_then (iupdate_put s ip s.disk _)
  apply next _ kept steady
  · exact ((cached_put ip _ _ ip).1).mpr cached
  · rw [nodes_put (held_bounded books.inv held) owned (fun _ _ _ _ _ => rfl) views, node_cached books cached,
      nodeOf_links type size addrs held.live]
  · intro jp other
    exact put_other s ip _ _ other
  · exact put_entry s ip _ _
  · exact put_disk s ip _ _

/- Directory entries. -/

theorem ofBytes_bytes {de : Dirent} : Dirent.ofBytes de.bytes = de := by
  have low := de.inum.toNat_lt
  have num : (leByte de.inum.toNat 0).toNat + 256 * (leByte de.inum.toNat 1).toNat = de.inum.toNat := by
    simp only [leByte, UInt8.toNat_ofNat', Nat.pow_zero, Nat.pow_one, Nat.div_one]
    omega
  unfold Dirent.ofBytes Dirent.bytes
  simp only [List.getD_cons_zero, List.getD_cons_succ, List.drop_succ_cons, List.drop_zero, num, UInt16.ofNat_toNat]

theorem fileBytes_written {off : Nat} {data : List UInt8}
    (bytes : ∀ x, off ≤ x → x < off + data.length → byteAt d dn x = data.getD (x - off) 0) :
    fileBytes d dn off data.length = data := by
  apply List.ext_getElem
  · simp [fileBytes]
  intro k first snd
  simp only [fileBytes, List.getElem_map, List.getElem_range]
  rw [bytes (off + k) (by omega) (by omega), Nat.add_sub_cancel_left, List.getD_eq_getElem _ _ snd]

theorem nodeOf_setEnt {d d' : Disk} {dn dn' : Dinode} {k : Nat} {de : Dirent}
    (dir : dn.type = tDir) (type : dn'.type = dn.type) (nlink : dn'.nlink = dn.nlink)
    (place : direntSize * k + direntSize ≤ dn.size.toNat ∨ direntSize * k = dn.size.toNat)
    (size : dn'.size.toNat = max dn.size.toNat (direntSize * k + direntSize))
    (length : de.name.length = dirSiz)
    (bytes : ∀ x, byteAt d' dn' x =
      if direntSize * k ≤ x ∧ x < direntSize * k + direntSize then
        de.bytes.getD (x - direntSize * k) 0 else byteAt d dn x) :
    nodeOf d' dn' = (nodeOf d dn).setEnt k (de.inum.toNat, cname de.name) := by
  have whole : de.bytes.length = direntSize := by
    simp [Dirent.bytes, length]
  have live := type_of_dir dir
  have live' : dn'.type ≠ 0 := by rwa [type]
  have slots : dirSlots dn = dn.size.toNat / direntSize := by rw [dirSlots, if_pos dir]
  have slots' : dirSlots dn' = max (dirSlots dn) (k + 1) := by
    rw [dirSlots, type, if_pos dir, slots, size]
    simp only [direntSize] at *
    omega
  have here : entryAt d' dn' (direntSize * k) = de := by
    have data : fileBytes d' dn' (direntSize * k) de.bytes.length = de.bytes := by
      apply fileBytes_written
      intro x lower upper
      rw [bytes, if_pos ⟨lower, by rw [whole] at upper; exact upper⟩]
    rw [whole] at data
    rw [entryAt, data, ofBytes_bytes]
  have others : ∀ j, j ≠ k → entryAt d' dn' (direntSize * j) = entryAt d dn (direntSize * j) := by
    intro j other
    unfold entryAt fileBytes
    congr 1
    apply List.map_congr_left
    intro t mem
    have small := List.mem_range.mp mem
    rw [bytes, if_neg]
    simp only [direntSize] at *
    omega
  unfold nodeOf
  rw [if_neg live, if_neg live', slots', type, nlink]
  unfold Node.setEnt
  congr 1
  funext j
  by_cases same : j = k
  · subst j
    rw [update_self, if_pos (by omega), here]
  rw [update_of_ne same, others j same]
  -- slots past the new one are as they were: there are none
  have apart : j < max (dirSlots dn) (k + 1) ↔ j < dirSlots dn := by
    rw [slots]
    simp only [direntSize] at *
    omega
  simp only [apart]

theorem writeDirent_spec (inv : Inv s) (held : Held s ip) (dir : (s.itable ip).dn.type = tDir) {k : Nat}
    (de : Dirent) {src : Buffer} (place : direntSize * k + direntSize ≤ (s.itable ip).dn.size.toNat ∨
      direntSize * k = (s.itable ip).dn.size.toNat) (length : de.name.length = dirSiz)
    (source : ∀ t < direntSize, src.byte t = de.bytes.getD t 0) :
    Ends (writei ip src (direntSize * k) direntSize) s
      (fun r t => (¬ writeiRefused (s.itable ip).dn (direntSize * k) direntSize → src.limit = none → r = direntSize) ∧
        (r = direntSize → Inv t ∧ ∃ d dn, t = s.put ip (putDinode s.sb d (s.itable ip).inum dn) dn ∧
          dn.type = (s.itable ip).dn.type ∧ dn.nlink = (s.itable ip).dn.nlink ∧
          dn.size.toNat = max (s.itable ip).dn.size.toNat (direntSize * k + direntSize) ∧
          (∀ j < s.sb.ninodes, getDinode s.sb d j = getDinode s.sb s.disk j) ∧
          nodes t = update (nodes s) (s.itable ip).inum
            ((nodes s (s.itable ip).inum).setEnt k (de.inum.toNat, cname de.name))))
      (fun msg => msg = "balloc: out of blocks" ∧
        (freeBlocks s.sb s.disk).card < writeiNeed s.disk (s.itable ip).dn (direntSize * k) direntSize) := by
  have inside := held_bounded inv held
  have spec := ends_and (inv_writei inv held src (direntSize * k) (n := direntSize) (by decide))
    (put_self s ip ▸ writei_spec s ip src (direntSize * k) direntSize rfl inside held.live
      (by decide) (held_owned inv held))
  apply ends_mono spec _ (fun _ => And.left)
  rintro r t ⟨inv', outcome⟩
  rcases outcome with ⟨refused, failed, _⟩ | ⟨_, d, dn, e, c, cost, rfl, ended, pos, written, sized, -⟩
  · refine ⟨fun accepted => absurd refused accepted, fun all => ?_⟩
    rw [failed] at all
    exact absurd all (by decide)
  refine ⟨fun _ mapped => ?_, fun all => ?_⟩
  · have whole : r.toNat = direntSize := ended.whole mapped
    omega
  have count : r.toNat = direntSize := by rw [all]; rfl
  have counted := ended.counted
  have most := ended.most
  rw [count] at counted sized
  have exact : c = direntSize := by
    simp only at counted
    omega
  subst c
  have type : dn.type = (s.itable ip).dn.type := by rw [sized, written.fields]; rfl
  have nlink : dn.nlink = (s.itable ip).dn.nlink := by rw [sized, written.fields]; rfl
  have addrs : dn.addrs = e.addrs := by rw [sized]; rfl
  have limit : max (s.itable ip).dn.size.toNat (direntSize * k + direntSize) < 2 ^ 32 := by
    have := full_size (held_full inv held)
    have : maxFile * bSize + direntSize < 2 ^ 32 := by decide
    omega
  have size : dn.size.toNat = max (s.itable ip).dn.size.toNat (direntSize * k + direntSize) := by
    rw [sized]
    change (UInt32.ofNat _).toNat = _
    rw [UInt32.toNat_ofNat', Nat.mod_eq_of_lt limit]
  have owned : Owned s.sb (update (view s) (s.itable ip).inum dn) d :=
    owned_fields written.owned (by rw [sized]; rfl) addrs
  have views : ∀ j < s.sb.ninodes, view (s.put ip (putDinode s.sb d (s.itable ip).inum dn) dn) j =
      update (view s) (s.itable ip).inum dn j := by
    intro j below
    refine view_put inv.table held.cached dn fun other => ?_
    rw [getDinode_putDinode_other other, written.dinodes j below]
  have own : ∀ x, byteAt d dn x = if direntSize * k ≤ x ∧ x < direntSize * k + direntSize then
        de.bytes.getD (x - direntSize * k) 0 else byteAt s.disk (s.itable ip).dn x := by
    intro x
    have bytes := written.bytes _ inside (by rw [update_self]; exact held.live) x
    rw [update_self, update_self] at bytes
    rw [byteAt_addrs addrs, bytes]
    by_cases range : direntSize * k ≤ x ∧ x < direntSize * k + direntSize
    · rw [if_pos ⟨rfl, range⟩, if_pos range, source _ (by omega)]
    · rw [if_neg (fun holds => range holds.2), if_neg range]
  have others : ∀ j < s.sb.ninodes, j ≠ (s.itable ip).inum → (view s j).type ≠ 0 →
      ∀ x, byteAt d (view s j) x = byteAt s.disk (view s j) x := by
    intro j below other live x
    have bytes := written.bytes j below
    rw [update_of_ne other, update_of_ne other] at bytes
    rw [bytes live x, if_neg (fun holds => other holds.1)]
  refine ⟨inv', d, dn, rfl, type, nlink, size, written.dinodes, ?_⟩
  rw [nodes_put inside owned others views, node_held inv held,
    nodeOf_setEnt dir type nlink place size length own]

theorem books_writeDirent (books : Books s h w) (cached : Cached s ip)
    (dir : (s.itable ip).dn.type = tDir) {k : Nat} (de : Dirent) {src : Buffer}
    (place : direntSize * k + direntSize ≤ (s.itable ip).dn.size.toNat ∨ direntSize * k = (s.itable ip).dn.size.toNat)
    (length : de.name.length = dirSiz) (source : ∀ t < direntSize, src.byte t = de.bytes.getD t 0)
    (linked : (s.itable ip).dn.nlink = 0 → 0 < h ip) : Ends (writei ip src (direntSize * k) direntSize) s
      (fun r t => r = direntSize → Books t h w ∧ Steady (h + w) s t ∧ Cached t ip ∧
        nodes t = update (nodes s) (s.itable ip).inum
          ((nodes s (s.itable ip).inum).setEnt k (de.inum.toNat, cname de.name)) ∧
        (∀ jp, jp ≠ ip → t.itable jp = s.itable jp)) (fun msg => msg = "balloc: out of blocks") := by
  have held := held_of books cached
  apply ends_mono (writeDirent_spec books.inv held dir de place length source) _ (fun _ => And.left)
  rintro r t ⟨-, written⟩ all
  obtain ⟨inv, d, dn, rfl, type, nlink, -, dinodes, tree⟩ := written all
  obtain ⟨kept, steady, -⟩ := books_put books cached inv (fun j below _ => dinodes j below)
    (by rw [type]; exact held.live) (by rw [nlink]; exact linked)
  exact ⟨kept, steady, ((cached_put ip _ _ ip).1).mpr cached, tree, fun jp other => put_other s ip _ _ other⟩

/- Looking up names. -/

theorem dirSlots_of (dir : dn.type = tDir) : dirSlots dn = dn.size.toNat / direntSize := if_pos dir

theorem ent_of (dir : dn.type = tDir) {k : Nat} (below : k < dirSlots dn) :
    (nodeOf d dn).ent k = ((entryAt d dn (direntSize * k)).inum.toNat, cname (entryAt d dn (direntSize * k)).name) := by
  have live := type_of_dir dir
  unfold nodeOf
  rw [if_neg live]
  exact if_pos below

theorem count_of (live : dn.type ≠ 0) : (nodeOf d dn).count = dirSlots dn := by
  unfold nodeOf
  rw [if_neg live]

theorem hit_iff (dir : dn.type = tDir) (name : List UInt8) (k : Nat) :
    Hit d dn name (direntSize * k) ↔ k < dirSlots dn ∧ ((nodeOf d dn).ent k).1 ≠ 0 ∧
      ((nodeOf d dn).ent k).2 = cname name := by
  have lt : direntSize * k + direntSize ≤ dn.size.toNat ↔ k < dirSlots dn := by
    rw [dirSlots_of dir]
    simp only [direntSize]
    omega
  have num : ∀ v : UInt16, v.toNat ≠ 0 ↔ v ≠ 0 := by
    intro v
    rw [not_iff_not, ← UInt16.toNat_inj]
    rfl
  unfold Hit
  rw [lt, namecmp_eq_zero]
  constructor
  · rintro ⟨_, below, used, same⟩
    rw [ent_of dir below]
    exact ⟨below, (num _).mpr used, same.symm⟩
  rintro ⟨below, used, same⟩
  rw [ent_of dir below] at used same
  refine ⟨?_, below, (num _).mp used, same.symm⟩
  simp only [direntSize]
  omega

theorem slot_of_none (dir : dn.type = tDir) {name : List UInt8}
    (unnamed : ∀ off, ¬ Hit d dn name off) : (nodeOf d dn).slot name = none := by
  rw [Node.slot, List.find?_eq_none]
  intro k mem found
  rw [decide_eq_true_eq] at found
  have live := type_of_dir dir
  rw [List.mem_range, count_of live] at mem
  exact unnamed _ ((hit_iff dir name k).mpr ⟨mem, found⟩)

theorem slot_of_hit (dir : dn.type = tDir) {name : List UInt8} {off : Nat} (hit : Hit d dn name off)
    (first : NoneBefore d dn name off) : ∃ k, off = direntSize * k ∧ (nodeOf d dn).slot name = some k ∧
      ((nodeOf d dn).ent k).1 = (entryAt d dn off).inum.toNat := by
  have live := type_of_dir dir
  have whole : off = direntSize * (off / direntSize) := by
    have := hit.1
    simp only [direntSize] at *
    omega
  rw [whole] at hit
  have here := (hit_iff dir name _).mp hit
  refine ⟨off / direntSize, whole, ?_, ?_⟩
  · rw [Node.slot, List.find?_range_eq_some]
    refine ⟨decide_eq_true here.2, by rw [count_of live]; exact List.mem_range.mpr here.1, ?_⟩
    intro j earlier
    rw [Bool.not_eq_true', decide_eq_false_iff_not]
    intro found
    refine first (direntSize * j) ?_ ((hit_iff dir name j).mpr ⟨by omega, found⟩)
    simp only [direntSize] at *
    omega
  · rw [ent_of dir here.1, ← whole]

theorem dirlookup_slot (inv : Inv s) (held : Held s ip) (name : List UInt8) : Ends (dirlookup ip name) s
      (fun r t => (nodes s (s.itable ip).inum).type = tDir ∧
        ((r = none ∧ t = s ∧ (nodes s (s.itable ip).inum).slot name = none) ∨
        ∃ jp k e, r = some (jp, direntSize * k) ∧ (nodes s (s.itable ip).inum).slot name = some k ∧
          Got s ((nodes s (s.itable ip).inum).ent k).1 jp e ∧ t = s.setIp jp e)) (LookupPanics s ip) := by
  apply ends_better (dirlookup_spec name (held_full inv held)) _
  rintro r t ⟨dir, looked⟩
  rw [node_held inv held]
  refine ⟨nodeOf_type.trans dir, ?_⟩
  cases looked with
  | absent unnamed => exact .inl ⟨rfl, rfl, slot_of_none dir unnamed⟩
  | found hit first got =>
    obtain ⟨k, place, slot, num⟩ := slot_of_hit dir hit first
    exact .inr ⟨_, k, _, by rw [place], slot, num ▸ got, rfl⟩

theorem books_dirlookup (books : Books s h w) (cached : Cached s ip) (name : List UInt8)
    (reach : ∀ k, (nodes s (s.itable ip).inum).slot name = some k →
      ((nodes s (s.itable ip).inum).ent k).1 < s.sb.ninodes) : Ends (dirlookup ip name) s
      (fun r t => (nodes s (s.itable ip).inum).type = tDir ∧
        ((r = none ∧ t = s ∧ (nodes s (s.itable ip).inum).slot name = none) ∨ ∃ jp k, r = some (jp, direntSize * k) ∧
          (nodes s (s.itable ip).inum).slot name = some k ∧ Books t h (w + one jp) ∧
          nodes t = nodes s ∧ Steady (h + w) s t ∧ (t.itable jp).inum = ((nodes s (s.itable ip).inum).ent k).1))
      (LookupPanics s ip) := by
  apply ends_better (dirlookup_slot books.inv (held_of books cached) name) _
  rintro r t ⟨dir, absent | ⟨jp, k, e, rfl, slot, got, rfl⟩⟩
  · exact ⟨dir, .inl absent⟩
  obtain ⟨kept, same, steady, named⟩ := books_got books (reach k slot) got
  exact ⟨dir, .inr ⟨jp, k, rfl, slot, kept, same, steady, named⟩⟩

theorem dirlookup_disk {ip : Ip} (books : Books s h w) (cached : Cached s ip) (name : List UInt8) :
    Ends (dirlookup ip name) s (fun _ t => t.disk = s.disk) (fun _ => True) := by
  apply ends_mono (dirlookup_spec name (held_full books.inv (held_of books cached))) _ (fun _ _ => trivial)
  rintro r t ⟨_, looked⟩
  cases looked with
  | absent unnamed => rfl
  | found hit first got => rfl

theorem cached_steady {t : Fs} {h' w' : Ip → Nat} (books : Books t h' w') {g : Ip → Nat}
    (steady : Steady g s t) (counted : 0 < g ip) (now : 0 < h' ip ∨ 0 < w' ip) (cached : Cached s ip) : Cached t ip :=
  ⟨ref_pos books now, (steady.2 ip counted).2 cached.2⟩

theorem counted_of (books : Books s h w) (active : 0 < (s.itable ip).ref) : 0 < (h + w) ip := by
  have total := books.refs ip
  omega

theorem vacant_slot (dir : dn.type = tDir) {off : Nat} (vacant : Vacant d dn off) :
    ∃ k, off = direntSize * k ∧ k ≤ (nodeOf d dn).count ∧ (k < (nodeOf d dn).count → ((nodeOf d dn).ent k).1 = 0) ∧
      (direntSize * k + direntSize ≤ dn.size.toNat ∨ direntSize * k = dn.size.toNat) := by
  have live := type_of_dir dir
  have whole : off = direntSize * (off / direntSize) := by
    have := vacant.1
    simp only [direntSize] at *
    omega
  have slots := dirSlots_of dir
  refine ⟨off / direntSize, whole, ?_, ?_, ?_⟩
  · rw [count_of live, slots]
    have := vacant.2
    simp only [direntSize] at *
    omega
  · intro below
    rw [count_of live] at below
    rw [ent_of dir below, ← whole]
    rcases vacant.2 with ⟨_, empty⟩ | last
    · rw [empty]
      rfl
    rw [slots] at below
    simp only [direntSize] at *
    omega
  rw [← whole]
  rcases vacant.2 with ⟨inside, _⟩ | last
  · exact .inl inside
  · exact .inr last

theorem books_dirlink (books : Books s h w) (cached : Cached s ip) (name : List UInt8) (inum : Nat)
    (reach : ∀ k, (nodes s (s.itable ip).inum).slot name = some k →
      ((nodes s (s.itable ip).inum).ent k).1 < s.sb.ninodes)
    (linked : (nodes s (s.itable ip).inum).nlink = 0 → 0 < h ip) : Ends (dirlink ip name inum) s
      (fun r t => (nodes s (s.itable ip).inum).type = tDir ∧ Books t h w ∧ Steady (h + w) s t ∧
        ((r = -1 ∧ Unchanged s t ∧ (nodes s (s.itable ip).inum).slot name ≠ none) ∨
        (r = 0 ∧ (nodes s (s.itable ip).inum).slot name = none ∧ ∃ k, k ≤ (nodes s (s.itable ip).inum).count ∧
            (k < (nodes s (s.itable ip).inum).count → ((nodes s (s.itable ip).inum).ent k).1 = 0) ∧
            nodes t = withEnt (nodes s) (s.itable ip).inum k (inum % 0x10000, cname name))))
      (fun msg => msg ∈ linkPanics ∨ msg = "balloc: out of blocks") := by
  have held := held_of books cached
  apply ends_step (ends_and (books_dirlookup books cached name reach)
    (dirlookup_disk books cached name)) (fun msg mem => .inl (List.mem_append_left _ mem.1.1))
  rintro r t ⟨⟨dir, ⟨rfl, rfl, absent⟩ | ⟨jp, k, rfl, found, books', same, steady, _⟩⟩, disk⟩
  · have own := node_cached books cached
    have kind : (t.itable ip).dn.type = tDir := by
      rw [own, nodeOf_type] at dir
      exact dir
    apply get_then
    apply ends_step (emptyFrom_spec (held_full books.inv held) _ 0 rfl (Nat.zero_le _) _)
      (fun msg same => .inl (by rw [same.1]; decide))
    · rintro off u ⟨rfl, vacant⟩
      obtain ⟨k, rfl, near, empty, place⟩ := vacant_slot kind vacant
      have bare : (u.itable ip).dn.nlink = 0 → 0 < h ip := by
        intro none
        apply linked
        rw [own, nodeOf, if_neg held.live]
        exact none
      apply ends_step (books_writeDirent books cached kind
        ⟨UInt16.ofNat inum, strncpy dirSiz name⟩ place (length_strncpy _ _)
        (fun _ _ => rfl) bare) (fun _ => .inr)
      intro r t written
      apply ends_ite
      · intro _
        exact ends_throw (.inl (by decide))
      intro all
      rw [not_not] at all
      obtain ⟨kept, steady, _, tree, _⟩ := written all
      refine ends_pure ⟨dir, kept, steady, .inr ⟨rfl, absent, k, ?_⟩⟩
      rw [cname_strncpy, UInt16.toNat_ofNat'] at tree
      rw [own] at tree ⊢
      refine ⟨near, empty, ?_⟩
      rw [tree, withEnt, own]
    simp only [direntSize]
    omega
  apply ends_step (ends_and (books_iput_work books') (iput_disk books'))
    (fun _ never => never.1.elim)
  rintro _ u ⟨⟨kept, unchanged, steady'⟩, disk'⟩
  refine ends_pure ⟨dir, kept, steady_trans steady steady', .inl ⟨rfl, ?_, ?_⟩⟩
  · exact unchanged_trans ⟨same, disk⟩ ⟨unchanged, disk'⟩
  rw [found]
  exact Option.some_ne_none k

theorem isdiremptyFrom_spec (full : Full s.disk (s.itable ip).dn) (fuel off : Nat)
    (enough : (s.itable ip).dn.size.toNat ≤ off + fuel * direntSize) : Ends (isdiremptyFrom ip fuel off) s
      (fun r t => t = s ∧ (r = true → ∀ m, off + m * direntSize < (s.itable ip).dn.size.toNat →
        (entryAt s.disk (s.itable ip).dn (off + m * direntSize)).inum = 0)) (fun msg => msg = "isdirempty: readi") := by
  induction fuel generalizing off with
  | zero =>
    refine ends_pure ⟨rfl, ?_⟩
    intro _ m below
    simp only [direntSize] at *
    omega
  | succ fuel ih =>
    apply get_then
    apply ends_ite
    · intro _
      apply ends_step (readDirent_spec off _ full) fun _ => And.left
      rintro de t ⟨rfl, _, rfl⟩
      apply ends_ite
      · intro _
        exact ends_pure ⟨rfl, fun never => by cases never⟩
      intro empty
      rw [not_not] at empty
      apply ends_better (ih (off + direntSize) _) _
      · simp only [direntSize] at *
        omega
      rintro r u ⟨rfl, rest⟩
      refine ⟨rfl, ?_⟩
      intro all m below
      cases m with
      | zero => rwa [Nat.zero_mul]
      | succ m =>
        have shift : off + (m + 1) * direntSize = off + direntSize + m * direntSize := by
          simp only [direntSize]
          omega
        rw [shift] at below ⊢
        exact rest all m below
    intro past
    refine ends_pure ⟨rfl, ?_⟩
    intro _ m below
    omega

theorem books_isdirempty (books : Books s h w) (cached : Cached s ip) : Ends (isdirempty ip) s
      (fun r t => t = s ∧ (r = true → ∀ k j, ¬ Names (nodes s) (s.itable ip).inum k j))
      (fun msg => msg = "isdirempty: readi") := by
  have held := held_of books cached
  apply get_then
  apply ends_better (isdiremptyFrom_spec (held_full books.inv held) _ _ _) _
  · simp only [direntSize]
    omega
  rintro r t ⟨rfl, empty⟩
  refine ⟨rfl, ?_⟩
  rintro all k j ⟨dir, later, below, same, used⟩
  rw [node_cached books cached] at dir below same
  rw [nodeOf_type] at dir
  rw [count_of held.live] at below
  rw [ent_of dir below] at same
  have place : direntSize * k = 2 * direntSize + (k - 2) * direntSize := by
    simp only [direntSize]
    omega
  rw [dirSlots_of dir] at below
  have zero := empty all (k - 2) (by simp only [direntSize] at *; omega)
  rw [← place] at zero
  rw [zero] at same
  exact used same.symm

/- A new inode. -/

theorem books_new {t : Fs} {i : Nat} (books : Books s h 0) (inv : Inv t) (sb : t.sb = s.sb)
    (lt : i < s.sb.ninodes) (free : (view s i).type = 0) (empty : (s.itable ip).ref = 0)
    (others : ∀ jp, jp ≠ ip → t.itable jp = s.itable jp) (num : (t.itable ip).inum = i)
    (mine : (t.itable ip).ref = 1) (valid : (t.itable ip).valid = true) (typed : (t.itable ip).dn.type ≠ 0)
    (linked : (t.itable ip).dn.nlink ≠ 0)
    (dinodes : getDinode t.sb t.disk = update (getDinode s.sb s.disk) i (t.itable ip).dn)
    (data : ∀ b, s.sb.Data b → t.disk b = s.disk b) : Books t (h + one ip) 0 ∧ Steady h s t ∧ Cached t ip ∧
      nodes t = update (nodes s) i (nodeOf t.disk (t.itable ip).dn) := by
  have none : h ip = 0 := by
    have total := books.refs ip
    rw [empty, Pi.add_apply] at total
    omega
  have settled : ∀ jp, 0 < h jp → jp ≠ ip := by
    rintro jp pos rfl
    omega
  have cases : ∀ jp, jp ≠ ip → 0 < (s.itable jp).ref → (s.itable jp).inum ≠ i := by
    intro jp _ busy same
    have pos : 0 < h jp := by
      have total := counted_of books busy
      exact total
    have allocated := books.held jp pos
    rw [same] at allocated
    exact allocated free
  have cached : Cached t ip := ⟨by rw [mine]; exact Int.one_pos, valid⟩
  have views : ∀ j, view t j = update (view s) i (t.itable ip).dn j := by
    intro j
    by_cases here : j = i
    · rw [here, update_self, ← num]
      exact view_cached inv.table cached
    rw [update_of_ne here]
    rcases view_cases inv.table j with ⟨jp, active, named, value⟩ | ⟨_, value⟩
    · have other : jp ≠ ip := by
        rintro rfl
        exact here (named.symm.trans num)
      unfold Cached at active
      rw [others jp other] at active named value
      rw [value, ← view_cached books.inv.table active, named]
    · rw [value, dinodes, update_of_ne here, books_view books]
  refine ⟨⟨inv, ?_, ?_, ?_, ?_, ?_, ?_⟩, ⟨sb, ?_⟩, cached, ?_⟩
  · intro jp active
    by_cases here : jp = ip
    · rw [here, num, dinodes, update_self]
    unfold Cached at active
    rw [others jp here] at active ⊢
    rw [dinodes, update_of_ne (cases jp here active.1)]
    exact books.sync jp active
  · intro jp
    by_cases here : jp = ip
    · rw [here, mine]
      simp only [Pi.add_apply, none, one_self]
      rfl
    rw [others jp here, books.refs]
    simp only [Pi.add_apply, one_other here]
    rfl
  · intro jp active
    rw [sb]
    by_cases here : jp = ip
    · rw [here, num]
      exact lt
    rw [others jp here] at active ⊢
    exact books.bounded jp active
  · intro jp active
    by_cases here : jp = ip
    · rw [here]
      exact typed
    unfold Cached at active
    rw [others jp here] at active ⊢
    exact books.live jp active
  · intro jp pos
    by_cases here : jp = ip
    · rw [here, num, views, update_self]
      exact typed
    rw [Pi.add_apply, one_other here] at pos
    rw [others jp here, views, update_of_ne]
    · exact books.held jp pos
    · exact cases jp here (ref_pos books (.inl pos))
  · intro j below allocated unlinked
    rw [sb] at below
    rw [views] at allocated unlinked
    by_cases here : j = i
    · rw [here, update_self] at unlinked
      exact absurd unlinked linked
    rw [update_of_ne here] at allocated unlinked
    obtain ⟨jp, pos, named, good⟩ := books.kept j below allocated unlinked
    have other := settled jp pos
    refine ⟨jp, ?_, by rw [others jp other, named], by rw [others jp other, good]⟩
    rw [Pi.add_apply]
    omega
  · intro jp pos
    rw [others jp (settled jp pos)]
    exact ⟨rfl, id⟩
  funext j
  unfold nodes
  rw [sb]
  by_cases below : j < s.sb.ninodes
  · rw [if_pos below, views]
    by_cases here : j = i
    · rw [here, update_self, update_self]
    rw [update_of_ne here, update_of_ne here, if_pos below]
    by_cases live : (view s j).type = 0
    · rw [nodeOf_free live, nodeOf_free live]
    · exact nodeOf_congr (contents_of_data books.inv.owned data below live).2
  have other : j ≠ i := by omega
  rw [if_neg below, update_of_ne other, if_neg below]

theorem inv_readIn {i : Nat} (inv : Inv s) (lt : i < s.sb.ninodes) (active : 0 < (s.itable ip).ref)
    (invalid : (s.itable ip).valid = false) (num : (s.itable ip).inum = i) :
    Inv (s.setIp ip ((s.itable ip).readIn (getDinode s.sb s.disk i))) := by
  have unread : ¬ Cached s ip := by
    intro cached
    rw [cached.2] at invalid
    cases invalid
  apply inv_setIp inv
  constructor
  · exact inv.table.nonneg ip
  · intro _ jp other busy same
    exact other (inv.table.unique jp ip busy active same)
  · intro _ _
    change (s.itable ip).inum < _
    rw [num]
    exact lt
  · intro _ _
    change getDinode s.sb s.disk i = view s (s.itable ip).inum
    rw [num, view_uncached]
    intro jp cached same
    have here := inv.table.unique jp ip cached.1 active (same.trans num.symm)
    rw [here] at cached
    exact unread cached
  intro cached
  exact absurd cached unread

theorem ilock_invalid (active : 0 < (s.itable ip).ref) (invalid : (s.itable ip).valid = false)
    (typed : (getDinode s.sb s.disk (s.itable ip).inum).type ≠ 0) : Ends (ilock ip) s
      (fun _ t => t = s.setIp ip ((s.itable ip).readIn (getDinode s.sb s.disk (s.itable ip).inum)))
      (fun msg => msg = "deadlock") := by
  apply get_then
  apply ends_ite
  · intro none
    omega
  intro _
  apply ends_ite
  · intro _
    exact ends_throw rfl
  intro _
  apply ends_ite
  · intro valid
    rw [invalid] at valid
    cases valid
  intro _
  apply modify_then
  apply ends_ite
  · intro untyped
    exact absurd untyped typed
  intro _
  exact ends_pure rfl

structure Allocated (s : Fs) (type : UInt16) (i : Nat) (ip : Ip) (t : Fs) : Prop where
  inv : Inv t
  sb : t.sb = s.sb
  disk : t.disk = putDinode s.sb s.disk i (blankDinode type)
  empty : (s.itable ip).ref = 0
  others : ∀ jp, jp ≠ ip → t.itable jp = s.itable jp
  number : (t.itable ip).inum = i
  mine : (t.itable ip).ref = 1
  valid : (t.itable ip).valid = true
  copy : (t.itable ip).dn = blankDinode type

theorem allocated_of_fresh {i : Nat} {type : UInt16} {e : Inode} (inv : Inv s) (lt : i < s.sb.ninodes)
    (free : (getDinode s.sb s.disk i).type = 0) (typed : type ≠ 0) (got : Got (s.mark i type) i ip e)
    (fresh : e.valid = false) (mine : e.ref = 1) (empty : (s.itable ip).ref = 0) (num : e.inum = i) :
    Ends (ilock ip) ((s.mark i type).setIp ip e) (fun _ t => Allocated s type i ip t)
      (fun msg => msg = "deadlock") := by
  have marked := inv_mark inv lt free type
  have inv1 := inv_setIp marked (neutral_got marked got)
  have entry : ((s.mark i type).setIp ip e).itable ip = e := setIp_entry e
  have blank : getDinode s.sb (putDinode s.sb s.disk i (blankDinode type)) i = blankDinode type := by
    rw [getDinode_putDinode, update_self]
  have active : 0 < (((s.mark i type).setIp ip e).itable ip).ref := by
    rw [entry, mine]
    exact Int.one_pos
  have invalid : (((s.mark i type).setIp ip e).itable ip).valid = false := by rw [entry, fresh]
  have named : (((s.mark i type).setIp ip e).itable ip).inum = i := by rw [entry, num]
  have inv2 := inv_readIn inv1 lt active invalid named
  have shown : getDinode ((s.mark i type).setIp ip e).sb ((s.mark i type).setIp ip e).disk i = blankDinode type := blank
  rw [shown] at inv2
  apply ends_better (ilock_invalid active invalid (by rw [named, shown]; exact typed)) _
  rintro _ t rfl
  rw [named, shown]
  refine ⟨inv2, rfl, rfl, empty, ?_, ?_, ?_, ?_, ?_⟩
  · intro jp other
    rw [setIp_other _ other, setIp_other _ other]
    rfl
  · rw [setIp_entry]
    exact named
  · rw [setIp_entry, entry]
    exact mine
  · rw [setIp_entry]
    rfl
  rw [setIp_entry]
  rfl

theorem books_ialloc (books : Books s h 0) {type : UInt16} (typed : type ≠ 0) (major minor : Int16)
    {A : Type} {rest : Ip → M A} {good : A → Fs → Prop} {bad : String → Prop}
    (tolerant : ∀ msg, msg ≠ "ilock: no type" → bad msg)
    (next : ∀ jp i t, i ≠ 0 → i < s.sb.ninodes → (nodes s i).type = 0 → Books t (h + one jp) 0 →
      Steady h s t → Cached t jp → (t.itable jp).inum = i →
      nodes t = update (nodes s) i (.blank type 1) → Ends (rest jp) t good bad) :
    Ends (do
      let jp ← ialloc type
      ilock jp
      updDn jp fun dn => { dn with major := major, minor := minor, nlink := 1 }
      iupdate jp
      rest jp) s good bad := by
  apply ends_step (ialloc_spec s type) _
  · rintro jp t ⟨i, pos, inside, free, e, got, rfl⟩
    have unused : (view s i).type = 0 := by rw [books_view books, free]
    have fresh : e.valid = false ∧ e.ref = 1 ∧ (s.itable jp).ref = 0 ∧ e.inum = i := by
      cases got with
      | again active number =>
        have allocated := books.held jp (counted_of books active)
        exact absurd unused (number ▸ allocated)
      | fresh empty _ => exact ⟨rfl, rfl, empty, rfl⟩
    obtain ⟨invalid, mine, empty, number⟩ := fresh
    apply ends_bind (ends_mono (allocated_of_fresh books.inv inside free typed got invalid mine empty number)
      (fun _ _ => id) (fun msg same => tolerant msg (by rw [same]; decide)))
    intro _ t made
    have held : Held t jp :=
      ⟨⟨by rw [made.mine]; exact Int.one_pos, made.valid⟩, by rw [made.copy]; exact typed⟩
    apply known_then (updDn_eq _)
    apply known_then (iupdate_put t jp t.disk _)
    generalize value : ({ (t.itable jp).dn with major := major, minor := minor, nlink := 1 } :
      Dinode) = dn
    have kind : dn.type = (t.itable jp).dn.type := by rw [← value]
    have size : dn.size = (t.itable jp).dn.size := by rw [← value]
    have nlink : dn.nlink = 1 := by rw [← value]
    have inv := inv_fields made.inv held kind size (by rw [← value])
    have entry := put_entry (s := t) jp (putDinode t.sb t.disk (t.itable jp).inum dn) dn
    rw [made.copy] at kind size
    obtain ⟨kept, steady, cached, tree⟩ := books_new books inv made.sb inside unused empty
      (by
        intro kp other
        rw [put_other _ _ _ _ other, made.others kp other])
      (by rw [entry]; exact made.number) (by rw [entry]; exact made.mine)
      (by rw [entry]; exact made.valid) (by rw [put_dn, kind]; exact typed)
      (by rw [put_dn, nlink]; decide)
      (by
        change getDinode t.sb (putDinode t.sb t.disk _ dn) = _
        rw [getDinode_putDinode, made.number, made.sb, made.disk, getDinode_putDinode, put_dn, update_idem])
      (by
        intro b data
        change putDinode t.sb t.disk _ dn b = _
        rw [putDinode_data _ dn (by rw [made.sb]; exact data), made.disk,
          putDinode_data inside _ data]
        rw [made.number, made.sb]
        exact inside)
    apply next jp i _ (by omega) inside _ kept steady cached
    · rw [entry]
      exact made.number
    · rw [tree, put_dn, nodeOf_blank (dirSlots_empty size) (by rw [kind]; exact typed), kind, nlink]
      rfl
    · rw [nodes_type s inside, unused]
  rintro msg (rfl | rfl)
  · exact tolerant _ (by decide)
  · exact tolerant _ (by decide)

end

end Xv6Fs
