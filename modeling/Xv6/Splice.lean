import Xv6.BlockOwnership
import Xv6.UserCopy

/- The contents of files: what readi delivers, and what writei makes of them, also when the
   user's memory ends early. -/
namespace Xv6Fs
open Xv6 Bytes Outcome Ownership Function

def contents (s : Fs) (i : Nat) : List UInt8 := fileBytes s.disk (view s i) 0 (view s i).size.toNat

/-- The list with new in place of what stands from off on. -/
def splice (old : List UInt8) (off : Nat) (new : List UInt8) : List UInt8 :=
  old.take off ++ new ++ old.drop (off + new.length)

def Buffer.first (src : Buffer) (n : Nat) : List UInt8 := (List.range n).map src.byte

section
variable {d d' : Disk} {dn dn' : Dinode} {off n : Nat}

theorem fileBytes_length (d : Disk) (dn : Dinode) (off n : Nat) : (fileBytes d dn off n).length = n := by
  simp [fileBytes]

theorem fileBytes_part (d : Disk) (dn : Dinode) (a k size : Nat) :
    ((fileBytes d dn 0 size).drop a).take k = fileBytes d dn a (min k (size - a)) := by
  apply List.ext_getElem
  · simp [fileBytes_length]
  intro x _ _
  simp [fileBytes]

theorem fileBytes_splice (src : Buffer) {size : Nat} (low : off ≤ size)
    (bytes : ∀ x, byteAt d' dn' x = if off ≤ x ∧ x < off + n then src.byte (x - off) else byteAt d dn x) :
    fileBytes d' dn' 0 (max size (off + n)) = splice (fileBytes d dn 0 size) off (src.first n) := by
  apply List.ext_getElem
  · simp [fileBytes, splice, Buffer.first]
    omega
  intro x inside _
  rw [fileBytes_length] at inside
  simp only [fileBytes, splice, Buffer.first, List.getElem_append, List.getElem_map, List.getElem_range,
    List.getElem_take, List.getElem_drop, List.length_append, List.length_take, List.length_map,
    List.length_range, Nat.zero_add, bytes]
  by_cases prev : x < off
  · rw [if_neg (by omega), dif_pos (by omega), dif_pos (by omega)]
  by_cases within : x < off + n
  · rw [if_pos ⟨by omega, within⟩, dif_pos (by omega), dif_neg (by omega), Nat.min_eq_left low]
  rw [if_neg (by omega), dif_neg (by omega)]
  congr 1
  omega

end

section
variable {s t : Fs} {ip : Ip}

theorem readi_contents (inv : Inv s) (held : Held s ip) (dst : Buffer) (all : dst.limit = none) {a e : UInt32}
    (range : a ≤ e) : readi ip dst a.toNat (e - a).toNat s =
      .ok (((((contents s (s.itable ip).inum).drop a.toNat).take (e - a).toNat).length,
        ((contents s (s.itable ip).inum).drop a.toNat).take (e - a).toNat), s) := by
  have distance : (e - a).toNat = e.toNat - a.toNat := UInt32.toNat_sub_of_le e a range
  have order : a.toNat ≤ e.toNat := UInt32.le_iff_toNat_le.mp range
  have last := e.toNat_lt
  obtain ⟨r, res, exactly⟩ := readi_ok dst a.toNat (held_full inv held) (e - a).toNat_lt
  rw [res, exactly all (.inl (by omega)), contents, held_view inv held, fileBytes_part, fileBytes_length]
  rfl

theorem byteAt_update {dns : Nat → Dinode} {i : Nat} {d : Disk} {dn dn' : Dinode} (addrs : dn'.addrs = dn.addrs)
    (j x : Nat) : byteAt d (update dns i dn' j) x = byteAt d (update dns i dn j) x := by
  by_cases here : j = i
  · subst j
    rw [update_self, update_self, byteAt, byteAt, fileBlock_addrs addrs]
  · rw [update_of_ne here, update_of_ne here]

theorem uint_sum {src : Buffer} {n off r k : Nat} {d : Disk} {dn e : Dinode}
    (small : n < 0x100000000) (accepted : ¬ writeiRefused dn off n) (ended : LoopEnd src n 0 off d e (r, off + r) k) :
    (UInt32.ofNat (max dn.size.toNat (off + r))).toNat = max dn.size.toNat (off + r) := by
  have bound := dn.size.toNat_lt
  have counted : r - 0 ≤ k := ended.counted
  have most := ended.most
  unfold writeiRefused addU32 at accepted
  rw [UInt32.toNat_ofNat', Nat.mod_eq_of_lt]
  omega

/-- What an accepted writei leaves behind when it reports r bytes. -/
structure Spliced (s t : Fs) (ip : Ip) (src : Buffer) (off r : Nat) : Prop where
  inv : Inv t
  held : Held t ip
  same : (t.itable ip).inum = (s.itable ip).inum ∧ t.sb = s.sb
  size : (t.itable ip).dn.size.toNat = max (s.itable ip).dn.size.toNat (off + r)
  file : contents t (s.itable ip).inum = splice (contents s (s.itable ip).inum) off (src.first r)
  others : ∀ j < s.sb.ninodes, j ≠ (s.itable ip).inum → (view s j).type ≠ 0 → contents t j = contents s j

theorem writei_contents (inv : Inv s) (held : Held s ip) (src : Buffer) {off n : Nat}
    (small : n < 0x100000000) (aligned : Aligned src 0 off) : Ends (writei ip src off n) s
      (fun r t => (writeiRefused (s.itable ip).dn off n ∧ r = -1 ∧ t = s) ∨
        (¬ writeiRefused (s.itable ip).dn off n ∧ 0 ≤ r ∧ (src.limit = none → r.toNat = n) ∧
          Spliced s t ip src off r.toNat)) (fun msg => msg = "balloc: out of blocks" ∧
        (freeBlocks s.sb s.disk).card < writeiNeed s.disk (s.itable ip).dn off n) := by
  have spec := writei_spec s ip src off n rfl (held_bounded inv held) held.live small (held_owned inv held)
  rw [put_self] at spec
  apply ends_mono (ends_and spec (inv_writei inv held src off small)) _ (fun _ => And.left)
  rintro r t ⟨refused | ⟨accepted, d', dn', e, k, cost, rfl, ended, pos, written, size, -⟩, inv'⟩
  · exact .inl refused
  have bound := held_bounded inv held
  have count : k = r.toNat := ended.clean aligned
  subst count
  have live : e.type ≠ 0 := by
    rw [written.fields]
    exact held.live
  have live' : dn'.type ≠ 0 := by
    rw [size]
    exact live
  have addrs : dn'.addrs = e.addrs := by rw [size]; rfl
  have views : ∀ j < s.sb.ninodes, view (s.put ip (putDinode s.sb d' (s.itable ip).inum dn') dn') j =
      update (view s) (s.itable ip).inum dn' j := by
    intro j inside
    refine view_put inv.table held.cached dn' fun other => ?_
    rw [getDinode_putDinode_other other, written.dinodes j inside]
  have total : dn'.size.toNat = max (s.itable ip).dn.size.toNat (off + r.toNat) := by
    rw [size]
    exact uint_sum small accepted ended
  have bytes : ∀ j < s.sb.ninodes, (view s j).type ≠ 0 → ∀ x,
      byteAt (putDinode s.sb d' (s.itable ip).inum dn') (update (view s) (s.itable ip).inum dn' j) x =
        if j = (s.itable ip).inum ∧ off ≤ x ∧ x < off + r.toNat then src.byte (x - off)
        else byteAt s.disk (view s j) x := by
    intro j inside used x
    rw [← held_update inv held] at used
    have old := written.bytes j inside used x
    rw [held_update inv held] at old
    rw [← old, byteAt_update addrs]
    refine (contents_of_data written.owned (fun b => putDinode_data bound dn') inside ?_).2 x
    rw [update_type written.fields]
    exact used
  refine .inr ⟨accepted, pos, ended.whole, inv', held_put held live', ⟨(cached_put ip _ _ ip).2.1, rfl⟩, ?_, ?_, ?_⟩
  · rw [put_dn]
    exact total
  · rw [contents, views _ bound, update_self, total, contents, held_view inv held]
    refine fileBytes_splice src ?_ fun x => ?_
    · unfold writeiRefused at accepted
      omega
    have here := bytes _ bound (by rw [held_view inv held]; exact held.live) x
    rw [update_self, held_view inv held] at here
    rw [put_disk, here]
    simp only [true_and]
  intro j inside other used
  rw [contents, views j inside, update_of_ne other, contents]
  refine List.map_congr_left fun x _ => ?_
  have there := bytes j inside used (0 + x)
  rw [update_of_ne other, if_neg fun here => other here.1] at there
  exact there

/-- writei from memory that is all there splices it into the contents of its file. -/
theorem writei_splices (inv : Inv s) (held : Held s ip) (src : Buffer) (all : src.limit = none)
    (off n : UInt32)
    (room : writeiNeed s.disk (s.itable ip).dn off.toNat n.toNat ≤ (freeBlocks s.sb s.disk).card) :
    (off ≤ (s.itable ip).dn.size → off.toNat + n.toNat ≤ maxFile * bSize →
      ∃ t, writei ip src off.toNat n.toNat s = .ok (n.toNat, t) ∧ (t.itable ip).inum = (s.itable ip).inum ∧
        (t.itable ip).dn.size.toNat = max (s.itable ip).dn.size.toNat (off.toNat + n.toNat) ∧
        contents t (s.itable ip).inum = splice (contents s (s.itable ip).inum) off.toNat (src.first n.toNat) ∧
        (∀ j < s.sb.ninodes, j ≠ (s.itable ip).inum → (view s j).type ≠ 0 → contents t j = contents s j) ∧
        ∀ jp (dst : Buffer) (a e : UInt32), Held t jp → dst.limit = none → a ≤ e →
          readi jp dst a.toNat (e - a).toNat t =
            .ok (((((contents t (t.itable jp).inum).drop a.toNat).take (e - a).toNat).length,
              ((contents t (t.itable jp).inum).drop a.toNat).take (e - a).toNat), t)) ∧
    ((s.itable ip).dn.size < off ∨ 0xffffffff < off.toNat + n.toNat ∨ maxFile * bSize < off.toNat + n.toNat →
      writei ip src off.toNat n.toNat s = .ok (-1, s)) := by
  have first := off.toNat_lt
  have second := n.toNat_lt
  have large : maxFile * bSize < 0x100000000 := by decide
  have aligned : Aligned src 0 off.toNat := by
    intro l limit
    rw [all] at limit
    cases limit
  have spec := writei_contents inv held src n.toNat_lt aligned
  have returned : ∃ r t, writei ip src off.toNat n.toNat s = .ok (r, t) := by
    cases result : writei ip src off.toNat n.toNat s with
    | error msg => exact absurd room (Nat.not_le.mpr (ends_error spec result).2)
    | ok pair => exact ⟨pair.1, pair.2, rfl⟩
  obtain ⟨r, t, result⟩ := returned
  have ended := ends_ok spec result
  constructor
  · intro low fits
    have inside := UInt32.le_iff_toNat_le.mp low
    rcases ended with ⟨refused, _⟩ | ⟨_, positive, whole, spliced⟩
    · unfold writeiRefused addU32 at refused
      omega
    have count := whole all
    have value : r = n.toNat := by omega
    rw [count] at spliced
    rw [value] at result
    refine ⟨t, result, spliced.same.1, spliced.size, spliced.file, spliced.others, ?_⟩
    exact fun jp dst a e held' mapped range => readi_contents spliced.inv held' dst mapped range
  intro outside
  rcases ended with ⟨_, value, same⟩ | ⟨accepted, _⟩
  · rw [value, same] at result
    exact result
  refine absurd ?_ accepted
  rw [UInt32.lt_iff_toNat_lt] at outside
  unfold writeiRefused addU32
  omega

end

theorem writei_splices_one_byte : ∃ t, writei 0 ⟨fun _ => 7, none⟩ 0 1 (tinyFs 0xff) = .ok (1, t) ∧
    contents t 1 = [7] := by
  have inv : Inv (tinyFs 0xff) := (inv_iff _).mpr ⟨tiny_full, by decide +kernel⟩
  obtain ⟨t, result, _, _, file, _⟩ := (writei_splices inv (tiny_held _) ⟨fun _ => 7, none⟩ rfl 0 1
    (by decide +kernel)).1 (by decide) (by decide)
  have old : splice (contents (tinyFs 0xff) ((tinyFs 0xff).itable 0).inum) (0 : UInt32).toNat
      (Buffer.first ⟨fun _ => 7, none⟩ (1 : UInt32).toNat) = [7] := by decide +kernel
  rw [old] at file
  exact ⟨t, result, file⟩

/- A turn of filewrite. -/

def filewriteTurn (ip : Ip) (src : Buffer) (off n1 : Nat) : M Int := do
  ilock ip
  let r ← writei ip src off n1
  iunlock ip
  pure r

section
variable {s t : Fs} {ip : Ip}

structure SameFiles (s t : Fs) (ip : Ip) : Prop where
  inv : Inv t
  entry : (t.itable ip).inum = (s.itable ip).inum ∧ (t.itable ip).ref = (s.itable ip).ref
  disk : t.disk = s.disk
  sb : t.sb = s.sb
  view : ∀ j, view t j = view s j

theorem sameFiles_entry (inv : Inv s) (active : 0 < (s.itable ip).ref) (known : (s.itable ip).inum < s.sb.ninodes)
    {e : Inode} (ref : e.ref = (s.itable ip).ref) (inum : e.inum = (s.itable ip).inum) (valid : e.valid = true)
    (dn : e.dn = view s (s.itable ip).inum) : SameFiles s (s.setIp ip e) ip := by
  have neutral : Neutral s ip e := by
    refine ⟨?_, ?_, ?_, ?_, ?_⟩
    · rw [ref]
      exact inv.table.nonneg ip
    · intro _ jp other busy same
      exact other (inv.table.unique jp ip busy active (same.trans inum))
    · intro _ _
      rw [inum]
      exact known
    · intro _ _
      rw [inum]
      exact dn
    intro _ gone
    exact absurd ⟨ref ▸ active, valid, inum⟩ gone
  refine ⟨inv_setIp inv neutral, ?_, rfl, rfl, view_setIp inv.table neutral⟩
  rw [setIp_entry]
  exact ⟨inum, ref⟩

theorem ilock_held (inv : Inv s) (active : 0 < (s.itable ip).ref)
    (known : (s.itable ip).inum < s.sb.ninodes) (live : (view s (s.itable ip).inum).type ≠ 0) :
    Ends (ilock ip) s (fun _ t => SameFiles s t ip ∧ Held t ip ∧ (t.itable ip).locked = true)
      (fun msg => msg = "deadlock" ∧ (s.itable ip).locked = true) := by
  have entered : ∀ e : Inode, e.ref = (s.itable ip).ref → e.inum = (s.itable ip).inum → e.valid = true →
      e.dn = view s (s.itable ip).inum → e.locked = true →
      SameFiles s (s.setIp ip e) ip ∧ Held (s.setIp ip e) ip ∧ ((s.setIp ip e).itable ip).locked = true := by
    intro e ref inum valid dn locked
    refine ⟨sameFiles_entry inv active known ref inum valid dn, ⟨?_, ?_⟩, ?_⟩
    · rw [Cached, setIp_entry, ref]
      exact ⟨active, valid⟩
    · rw [setIp_entry, dn]
      exact live
    rw [setIp_entry]
    exact locked
  refine get_then (ends_ite (fun unused => ?_) fun _ => ends_ite (fun busy => ends_throw ⟨rfl, busy⟩) fun _ => ?_)
  · exact absurd unused (Int.not_lt.mpr active)
  refine ends_ite (fun valid => ?_) fun invalid => ?_
  · refine ends_known rfl (entered _ rfl rfl valid ?_ rfl)
    exact (view_cached inv.table ⟨active, valid⟩).symm
  have disk : view s (s.itable ip).inum = getDinode s.sb s.disk (s.itable ip).inum := by
    refine view_uncached fun jp cached same => invalid ?_
    rw [← inv.table.unique jp ip cached.1 active same]
    exact cached.2
  refine modify_then (ends_ite (fun untyped => ?_) fun _ => ends_pure ?_)
  · rw [disk] at live
    exact absurd untyped live
  · exact entered _ rfl rfl rfl disk.symm rfl

theorem iunlock_held (inv : Inv s) (held : Held s ip) (locked : (s.itable ip).locked = true) :
    Ends (iunlock ip) s (fun _ t => SameFiles s t ip ∧ (t.itable ip).locked = false) (fun _ => False) := by
  have active := held.cached.1
  refine get_then (ends_ite (fun wrong => ?_) fun _ => ends_known rfl ⟨?_, ?_⟩)
  · rcases wrong with unlocked | unused
    · rw [locked] at unlocked
      cases unlocked
    · omega
  · exact sameFiles_entry inv active (held_bounded inv held) rfl rfl held.cached.2 (held_view inv held).symm
  change ((s.setIp ip _).itable ip).locked = false
  rw [setIp_entry]
  rfl

theorem writei_entry (inv : Inv s) (held : Held s ip) (src : Buffer) {off n : Nat} (small : n < 0x100000000) :
    Ends (writei ip src off n) s (fun _ t => (t.itable ip).locked = (s.itable ip).locked ∧ Held t ip)
      (· = "balloc: out of blocks") := by
  have spec := writei_spec s ip src off n rfl (held_bounded inv held) held.live small (held_owned inv held)
  rw [put_self] at spec
  refine ends_mono spec ?_ fun _ => And.left
  rintro r t (⟨_, _, rfl⟩ | ⟨_, d, dn, e, _, _, rfl, _, _, written, size, -⟩)
  · exact ⟨rfl, held⟩
  refine ⟨?_, held_put held ?_⟩
  · rw [put_entry]
    rfl
  rw [size, Dinode.setSize, written.fields]
  exact held.live

end

/- The user's memory: page pn, where it is mapped for the user. -/

abbrev pgSize : Nat := 4096

def userBuffer (walkaddr : Nat → Option (Nat → UInt8)) (addr n : Nat) : Buffer where
  byte t := (walkaddr ((addr + t) / pgSize)).elim 0 fun page => page ((addr + t) % pgSize)
  limit := (List.range n).find? fun t => (walkaddr ((addr + t) / pgSize)).isNone

def userPages {N : Nat} (t : Xv6Vm.Table N) (mem : Xv6Vm.Ram N) (pn : Nat) : Option (Nat → UInt8) :=
  (Xv6Vm.walkaddr t (pn * pgSize)).map mem

/-- copyin takes the bytes before the first that the user cannot reach, and fails if there is one. -/
theorem copyin_stops {N : Nat} (t : Xv6Vm.Table N) (mem : Xv6Vm.Ram N) (dst : Store) {addr n tot m : Nat}
    (lt : tot + m ≤ n) (started : ∀ l, (userBuffer (userPages t mem) addr n).limit = some l → tot ≤ l) :
    Xv6Vm.copyin t mem dst (addr + tot) m = (decide ((userBuffer (userPages t mem) addr n).copied tot m = m),
      putBytes dst 0 ((userBuffer (userPages t mem) addr n).copied tot m) fun k =>
        (userBuffer (userPages t mem) addr n).byte (tot + k)) := by
  have page : ∀ a, userPages t mem (a / pgSize) = (Xv6Vm.walkaddr t a).map mem :=
    fun a => congrArg (Option.map mem) (Xv6Vm.walkaddr_start a)
  obtain ⟨k, reach, ok, bytes⟩ := Xv6Vm.copyin_rule t mem dst (addr + tot) m
  have count : (userBuffer (userPages t mem) addr n).copied tot m = k := by
    have le := reach.le
    unfold Buffer.copied
    cases limit : (userBuffer (userPages t mem) addr n).limit with
    | none =>
      simp only
      by_contra short
      have mapped := List.find?_range_eq_none.mp limit (tot + k) (by omega)
      rw [page, ← Nat.add_assoc, reach.hole (by omega)] at mapped
      cases mapped
    | some l =>
      obtain ⟨unmapped, -, prev⟩ := List.find?_range_eq_some.mp limit
      have first := started l limit
      have after : ¬ l < tot + k := by
        intro less
        apply reach.mapped (l - tot) (by omega)
        rw [page] at unmapped
        rw [Nat.add_assoc, Nat.add_sub_cancel' first]
        simpa using unmapped
      by_cases all : k = m
      · simp only
        omega
      have here : ¬ tot + k < l := by
        intro less
        have mapped := prev (tot + k) less
        rw [page, ← Nat.add_assoc, reach.hole (by omega)] at mapped
        cases mapped
      simp only
      omega
  rw [count]
  have same : (fun j => Xv6Vm.userByte t mem (addr + tot + j)) =
      fun j => (userBuffer (userPages t mem) addr n).byte (tot + j) := by
    funext j
    simp only [userBuffer, page, Xv6Vm.userByte, Nat.add_assoc]
    cases Xv6Vm.walkaddr t (addr + (tot + j)) <;> rfl
  rw [same] at bytes
  exact Prod.ext ok bytes

theorem copyin_stops_page_end : (Xv6Vm.copyin Xv6Vm.onePage (fun _ _ => 7) (fun _ => 0) 4095 2).1 = false := by
  have stops := @copyin_stops 1 Xv6Vm.onePage (fun _ _ => 7) (fun _ => 0) 4095 2 0 2 (by decide) fun _ _ => Nat.zero_le _
  exact (congrArg Prod.fst stops).trans (by decide)

def onePage (pn : Nat) : Option (Nat → UInt8) := if pn = 0 then some fun _ => 8 else none

end Xv6Fs
