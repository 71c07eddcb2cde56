import Xv6.InodeTable
import Xv6.Dirs

/- What dirlookup and dirlink find in the bytes of a directory. -/
namespace Xv6Fs
open Xv6 Bytes Outcome Ownership

def entryAt (d : Disk) (dn : Dinode) (off : Nat) : Dirent :=
  Dirent.ofBytes (fileBytes d dn off direntSize)

def Hit (d : Disk) (dn : Dinode) (name : List UInt8) (off : Nat) : Prop :=
  off % direntSize = 0 ∧ off + direntSize ≤ dn.size.toNat ∧ (entryAt d dn off).inum ≠ 0 ∧
    namecmp name (entryAt d dn off).name = 0

section
variable {s : Fs} {dp : Ip}
variable {off : Nat} {dn : Dinode}

theorem readDirent_spec (off : Nat) (msg : String) (full : Full s.disk (s.itable dp).dn) :
    Ends (readDirent dp off msg) s (fun de t => t = s ∧ off + direntSize ≤ (s.itable dp).dn.size.toNat ∧
        de = entryAt s.disk (s.itable dp).dn off)
      (fun panic => panic = msg ∧ (s.itable dp).dn.size.toNat < off + direntSize) := by
  have size := full_size full
  have large : maxFile * bSize + direntSize < 0x100000000 := by decide
  obtain ⟨r, res, exact⟩ := readi_ok (kernel []) off (n := direntSize) full (by decide)
  apply known_then res
  have value := exact rfl (by omega)
  rw [value]
  apply ends_ite
  · intro short
    refine ends_throw ⟨rfl, ?_⟩
    by_contra inside
    refine short (congrArg Nat.cast ?_)
    unfold readCount
    omega
  intro whole
  rw [not_not] at whole
  have count : readCount (s.itable dp).dn off direntSize = direntSize := Int.ofNat_inj.mp whole
  rw [count]
  refine ends_pure ⟨rfl, ?_, rfl⟩
  unfold readCount at count
  simp only [direntSize] at *
  omega

theorem ragged {size : Nat} (aligned : off % direntSize = 0) (below : off < size)
    (short : size < off + direntSize) : size % direntSize ≠ 0 := by
  simp only [direntSize] at *
  omega

def NoneBefore (d : Disk) (dn : Dinode) (name : List UInt8) (off : Nat) : Prop :=
  ∀ x < off, ¬ Hit d dn name x

theorem noneBefore_next {d : Disk} {name : List UInt8}
    (prev : NoneBefore d dn name off) (aligned : off % direntSize = 0)
    (here : (entryAt d dn off).inum = 0 ∨ namecmp name (entryAt d dn off).name ≠ 0) :
    NoneBefore d dn name (off + direntSize) := by
  intro x below hit
  by_cases earlier : x < off
  · exact prev x earlier hit
  have same : x = off := by
    have := hit.1
    simp only [direntSize] at *
    omega
  subst x
  rcases here with empty | other
  · exact hit.2.2.1 empty
  · exact other hit.2.2.2

theorem noneBefore_end {d : Disk} {name : List UInt8} (prev : NoneBefore d dn name off)
    (past : dn.size.toNat ≤ off) (x : Nat) : ¬ Hit d dn name x := by
  intro hit
  have inside := hit.2.1
  exact prev x (by simp only [direntSize] at *; omega) hit

/-- dirlookup's result: nothing, or the first entry with the name. -/
inductive Looked (s : Fs) (dp : Ip) (name : List UInt8) : Option (Ip × Nat) → Fs → Prop where
  | absent (unnamed : ∀ off, ¬ Hit s.disk (s.itable dp).dn name off) : Looked s dp name none s
  | found {ip : Ip} {off : Nat} {e : Inode} (hit : Hit s.disk (s.itable dp).dn name off)
      (first : NoneBefore s.disk (s.itable dp).dn name off)
      (got : Got s (entryAt s.disk (s.itable dp).dn off).inum.toNat ip e) :
    Looked s dp name (some (ip, off)) (s.setIp ip e)

def lookupPanics : List String := ["dirlookup not DIR", "dirlookup read", "iget: no inodes"]

/-- Where dirlookup panics: in a directory of whole entries for want of a table entry only. -/
def LookupPanics (s : Fs) (dp : Ip) (msg : String) : Prop :=
  msg ∈ lookupPanics ∧ ((s.itable dp).dn.type = tDir → (s.itable dp).dn.size.toNat % direntSize = 0 →
    ∀ jp, (s.itable jp).ref ≠ 0)

theorem dirlookupFrom_spec (name : List UInt8) (full : Full s.disk (s.itable dp).dn) (fuel off : Nat)
    (aligned : off % direntSize = 0) (enough : (s.itable dp).dn.size.toNat < off + fuel * direntSize)
    (prev : NoneBefore s.disk (s.itable dp).dn name off) :
    Ends (dirlookupFrom dp name fuel off) s (Looked s dp name) (LookupPanics s dp) := by
  induction fuel generalizing off with
  | zero => exact ends_pure (Looked.absent (noneBefore_end prev (by omega)))
  | succ fuel ih =>
    apply get_then
    apply ends_ite
    · intro below
      apply ends_step (readDirent_spec off _ full) fun msg panic =>
        ⟨by rw [panic.1]; decide, fun _ whole => absurd whole (ragged aligned below panic.2)⟩
      rintro de t ⟨rfl, inside, rfl⟩
      have next : NoneBefore t.disk (t.itable dp).dn name (off + direntSize) →
          Ends (dirlookupFrom dp name fuel (off + direntSize)) t (Looked t dp name)
            (LookupPanics t dp) := by
        intro passed
        have later : (off + direntSize) % direntSize = 0 := by
          simp only [direntSize] at *
          omega
        apply ih (off + direntSize) later _ passed
        simp only [direntSize] at *
        omega
      apply ends_ite
      · intro empty
        exact next (noneBefore_next prev aligned (.inl empty))
      intro used
      apply ends_ite
      · intro match'
        apply ends_step (iget_spec t _) (fun msg same => ⟨by rw [same.1]; decide, fun _ _ => same.2⟩)
        rintro ip u ⟨e, got, rfl⟩
        exact ends_pure (Looked.found ⟨aligned, inside, used, match'⟩ prev got)
      intro other
      exact next (noneBefore_next prev aligned (.inr other))
    intro past
    exact ends_pure (Looked.absent (noneBefore_end prev (by omega)))

theorem dirlookup_spec (name : List UInt8) (full : Full s.disk (s.itable dp).dn) : Ends (dirlookup dp name) s
      (fun r t => (s.itable dp).dn.type = tDir ∧ Looked s dp name r t) (LookupPanics s dp) := by
  apply get_then
  apply ends_ite
  · intro file
    exact ends_throw ⟨by decide, fun dir => absurd dir file⟩
  intro dir
  rw [not_not] at dir
  apply ends_mono (dirlookupFrom_spec name full _ 0 rfl _ _)
  · intro r t looked
    exact ⟨dir, looked⟩
  · exact fun _ => id
  · simp only [direntSize]
    omega
  intro x below
  omega

def Vacant (d : Disk) (dn : Dinode) (off : Nat) : Prop :=
  off % direntSize = 0 ∧ (off + direntSize ≤ dn.size.toNat ∧ (entryAt d dn off).inum = 0 ∨
    off = dn.size.toNat)

theorem emptyFrom_spec (full : Full s.disk (s.itable dp).dn) (fuel off : Nat) (aligned : off % direntSize = 0)
    (lt : off ≤ (s.itable dp).dn.size.toNat)
    (enough : (s.itable dp).dn.size.toNat < off + fuel * direntSize) : Ends (emptyFrom dp fuel off) s
      (fun r t => t = s ∧ Vacant s.disk (s.itable dp).dn r)
      (fun msg => msg = "dirlink read" ∧ (s.itable dp).dn.size.toNat % direntSize ≠ 0) := by
  induction fuel generalizing off with
  | zero => exact ends_pure ⟨rfl, aligned, by omega⟩
  | succ fuel ih =>
    apply get_then
    apply ends_ite
    · intro below
      apply ends_step (readDirent_spec off _ full) fun msg panic =>
        ⟨panic.1, ragged aligned below panic.2⟩
      rintro de t ⟨rfl, whole, rfl⟩
      apply ends_ite
      · intro empty
        exact ends_pure ⟨rfl, aligned, .inl ⟨whole, empty⟩⟩
      intro _
      apply ih
      · simp only [direntSize] at *
        omega
      · exact whole
      simp only [direntSize] at *
      omega
    intro past
    exact ends_pure ⟨rfl, aligned, by omega⟩

theorem iput_stays (stays : ¬ iputFrees (s.itable dp)) :
    iput dp s = .ok ((), s.setIp dp ((s.itable dp).setRef ((s.itable dp).ref - 1))) := by
  change (if (s.itable dp).ref = 1 ∧ (s.itable dp).valid = true ∧ (s.itable dp).dn.nlink = 0 then _
    else updIp dp _ : M Unit) s = _
  unfold iputFrees at stays
  rw [if_neg stays]
  rfl

theorem setIp_setIp {ip : Ip} (e e' : Inode) : (s.setIp ip e).setIp ip e' = s.setIp ip e' := by
  unfold Fs.setIp
  rw [Function.update_idem]

theorem iput_got {ip : Ip} {inum : Nat} {e : Inode} (inv : Inv s) (got : Got s inum ip e) :
    ∃ e', iput ip (s.setIp ip e) = .ok ((), s.setIp ip e') ∧ Neutral s ip e' ∧
      e'.ref = (s.itable ip).ref ∧ (0 < e'.ref → e' = s.itable ip) := by
  cases got with
  | again live num =>
    have stays : ¬ iputFrees ((s.setIp ip ((s.itable ip).setRef ((s.itable ip).ref + 1))).itable ip) := by
      rw [setIp_entry]
      intro frees
      have last : (s.itable ip).ref + 1 = 1 := frees.1
      omega
    refine ⟨s.itable ip, ?_, ?_, rfl, fun _ => rfl⟩
    · rw [iput_stays stays, setIp_entry, setIp_setIp]
      have back : ((s.itable ip).setRef ((s.itable ip).ref + 1)).setRef
          (((s.itable ip).setRef ((s.itable ip).ref + 1)).ref - 1) = s.itable ip := by
        change (s.itable ip).setRef ((s.itable ip).ref + 1 - 1) = _
        rw [Int.add_sub_cancel]
        rfl
      rw [back]
    constructor
    · exact inv.table.nonneg ip
    · intro active jp other active' same
      exact other (inv.table.unique jp ip active' active same)
    · intro active valid
      exact inv.table.bounded ip ⟨active, valid⟩
    · intro active valid
      exact (view_cached inv.table ⟨active, valid⟩).symm
    intro cached gone
    exact absurd ⟨cached.1, cached.2, rfl⟩ gone
  | fresh empty absent =>
    have stays : ¬ iputFrees ((s.setIp ip { s.itable ip with inum := inum, ref := 1, valid := false }).itable ip) := by
      rw [setIp_entry]
      intro frees
      cases frees.2.1
    refine ⟨{ s.itable ip with inum := inum, ref := 0, valid := false }, ?_, ?_, empty.symm, ?_⟩
    · rw [iput_stays stays, setIp_entry, setIp_setIp]
      rfl
    · constructor
      · exact Int.le_refl 0
      · intro active
        exact absurd active (lt_irrefl 0)
      · intro active
        exact absurd active (lt_irrefl 0)
      · intro active
        exact absurd active (lt_irrefl 0)
      intro cached
      have := cached.1
      omega
    intro active
    exact absurd active (lt_irrefl 0)

def linkPanics : List String := lookupPanics ++ ["dirlink read", "dirlink"]

theorem touched_dirent (aligned : off % direntSize = 0) : touched off direntSize = [off / bSize] := by
  have one : (off + direntSize - 1) / bSize - off / bSize + 1 = 1 := by
    simp only [direntSize, bSize] at *
    omega
  rw [touched, if_neg (by decide), one]
  rfl

theorem need_inside {d : Disk} (full : Full d dn) (aligned : off % direntSize = 0)
    (lt : off + direntSize ≤ dn.size.toNat) : writeiNeed d dn off direntSize = 0 := by
  have present : fileBlock d dn (off / bSize) ≠ 0 := by
    apply full_byte full
    simp only [direntSize] at *
    omega
  have none : missing d dn (touched off direntSize) = 0 := by
    rw [touched_dirent aligned, missing]
    have holder : ¬ (dn.indirect = 0 ∧ ∃ bn ∈ [off / bSize], nDirect ≤ bn) := by
      rintro ⟨absent, bn, mem, far⟩
      rw [List.mem_singleton] at mem
      subst bn
      exact present (fileBlock_no_indirect (by omega) absent)
    rw [if_neg holder, List.countP_singleton, if_neg (by simpa using present)]
  rw [writeiNeed, none, ite_self]

theorem need_vacant {d : Disk} (full : Full d dn) (vacant : Vacant d dn off) :
    writeiNeed d dn off direntSize ≤ writeiNeed d dn dn.size.toNat direntSize := by
  rcases vacant.2 with ⟨inside, _⟩ | last
  · rw [need_inside full vacant.1 inside]
    exact Nat.zero_le _
  · rw [last]

theorem inv_dirlink (inv : Inv s) (held : Held s dp) (name : List UInt8) (inum : Nat) :
    Ends (dirlink dp name inum) s (fun _ t => Inv t)
      (fun msg => msg ∈ linkPanics ∨ (msg = "balloc: out of blocks" ∧ (freeBlocks s.sb s.disk).card <
          writeiNeed s.disk (s.itable dp).dn (s.itable dp).dn.size.toNat direntSize)) := by
  have full := held_full inv held
  apply ends_step (dirlookup_spec name full) (fun msg mem => .inl (List.mem_append_left _ mem.1))
  rintro r t ⟨_, looked⟩
  cases looked with
  | found hit first got =>
    obtain ⟨e', res, neutral, _⟩ := iput_got inv got
    apply known_then res
    exact ends_pure (inv_setIp inv neutral)
  | absent unnamed =>
    apply get_then
    apply ends_step (emptyFrom_spec full _ 0 rfl (Nat.zero_le _) _)
      (fun msg same => .inl (by rw [same.1]; decide))
    · rintro off t ⟨rfl, vacant⟩
      apply ends_step (inv_writei inv held _ off (by decide)) _
      · intro r t kept
        apply ends_ite
        · intro _
          exact ends_throw (.inl (by decide))
        intro _
        exact ends_pure kept
      rintro msg ⟨same, short⟩
      exact .inr ⟨same, Nat.lt_of_lt_of_le short (need_vacant full vacant)⟩
    simp only [direntSize]
    omega

end

end Xv6Fs
