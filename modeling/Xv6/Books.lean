import Xv6.Tree

/- The inode table between the steps of a system call: the settled references, of current
   directories and open files, and those that the call itself works with. -/
namespace Xv6Fs
open Xv6 Bytes Outcome Ownership Function

/-- ilock finds a free inode only if p. -/
abbrev UntypedIf (p : Prop) (msg : String) : Prop := msg = "ilock: no type" → p

theorem untyped_other {p : Prop} {text : String} (other : text ≠ "ilock: no type") (msg : String)
    (same : msg = text) : UntypedIf p msg := fun untyped => absurd (same.symm.trans untyped) other

def one (ip : Ip) : Ip → Nat := fun jp => if jp = ip then 1 else 0

theorem one_self (ip : Ip) : one ip ip = 1 := if_pos rfl

theorem one_pos (ip : Ip) : 0 < one ip ip := by
  rw [one_self]
  omega

theorem add_one_pos (h : Ip → Nat) (ip : Ip) : 0 < (h + one ip) ip := Nat.add_pos_right _ (one_pos ip)

theorem one_other {ip jp : Ip} (other : jp ≠ ip) : one ip jp = 0 := if_neg other

/-- The table has copies of what is on the disk, and its references are the settled ones, h,
    and those at work, w. An allocated inode without links has a settled reference. -/
structure Books (s : Fs) (h w : Ip → Nat) : Prop where
  inv : Inv s
  sync : ∀ ip, Cached s ip → getDinode s.sb s.disk (s.itable ip).inum = (s.itable ip).dn
  refs : ∀ ip, (s.itable ip).ref = ((h + w) ip : Nat)
  bounded : ∀ ip, 0 < (s.itable ip).ref → (s.itable ip).inum < s.sb.ninodes
  live : ∀ ip, Cached s ip → (s.itable ip).dn.type ≠ 0
  held : ∀ ip, 0 < h ip → (view s (s.itable ip).inum).type ≠ 0
  kept : ∀ i < s.sb.ninodes, (view s i).type ≠ 0 → (view s i).nlink = 0 →
    ∃ ip, 0 < h ip ∧ (s.itable ip).inum = i ∧ (s.itable ip).valid = true

def Steady (g : Ip → Nat) (s t : Fs) : Prop :=
  t.sb = s.sb ∧ ∀ jp, 0 < g jp → (t.itable jp).inum = (s.itable jp).inum ∧
    ((s.itable jp).valid = true → (t.itable jp).valid = true)

theorem steady_refl (g : Ip → Nat) (s : Fs) : Steady g s s :=
  ⟨rfl, fun _ _ => ⟨rfl, id⟩⟩

theorem steady_trans {g : Ip → Nat} {s t u : Fs} (first : Steady g s t) (snd : Steady g t u) : Steady g s u := by
  refine ⟨snd.1.trans first.1, ?_⟩
  intro jp pos
  obtain ⟨num, valid⟩ := first.2 jp pos
  obtain ⟨number', valid'⟩ := snd.2 jp pos
  exact ⟨number'.trans num, fun good => valid' (valid good)⟩

theorem steady_mono {g g' : Ip → Nat} {s t : Fs} (steady : Steady g s t) (fewer : g' ≤ g) : Steady g' s t :=
  ⟨steady.1, fun jp pos => steady.2 jp (Nat.lt_of_lt_of_le pos (fewer jp))⟩

theorem steady_inum {h : Ip → Nat} {s t : Fs} {ip : Ip} (steady : Steady (h + one ip) s t) :
    (t.itable ip).inum = (s.itable ip).inum :=
  (steady.2 ip (add_one_pos h ip)).1

theorem nodeOf_free {d : Disk} {dn : Dinode} (free : dn.type = 0) : nodeOf d dn = .free :=
  if_pos free

theorem nodeOf_congr {d d' : Disk} {dn : Dinode} (bytes : ∀ x, byteAt d' dn x = byteAt d dn x) :
    nodeOf d' dn = nodeOf d dn := by
  have entries : ∀ off, entryAt d' dn off = entryAt d dn off := by
    intro off
    unfold entryAt fileBytes
    simp only [bytes]
  unfold nodeOf
  simp only [entries]

section
variable {s : Fs} {h w : Ip → Nat}
variable {ip : Ip}

theorem books_view (books : Books s h w) (i : Nat) : view s i = getDinode s.sb s.disk i := by
  rcases view_cases books.inv.table i with ⟨ip, cached, num, value⟩ | ⟨_, value⟩
  · rw [value, ← num, books.sync ip cached]
  · exact value

theorem nodes_type (s : Fs) {i : Nat} (lt : i < s.sb.ninodes) : (nodes s i).type = (view s i).type := by
  unfold nodes nodeOf
  rw [if_pos lt]
  split
  · rename_i free
    exact free.symm
  · rfl

theorem nodes_nlink (s : Fs) {i : Nat} (lt : i < s.sb.ninodes) (live : (view s i).type ≠ 0) :
    (nodes s i).nlink = (view s i).nlink := by
  unfold nodes nodeOf
  rw [if_pos lt, if_neg live]

theorem nodes_of_view {t : Fs} (sb : t.sb = s.sb)
    (same : ∀ i < s.sb.ninodes, nodeOf t.disk (view t i) = nodeOf s.disk (view s i)) : nodes t = nodes s := by
  funext i
  unfold nodes
  rw [sb]
  split
  · exact same i ‹_›
  · rfl

theorem ref_pos (books : Books s h w) (held : 0 < h ip ∨ 0 < w ip) : 0 < (s.itable ip).ref := by
  rw [books.refs, Pi.add_apply]
  omega

theorem nodes_setIp {e : Inode} (inv : Inv s) (neutral : Neutral s ip e) : nodes (s.setIp ip e) = nodes s := by
  apply nodes_of_view (s := s) (t := s.setIp ip e) rfl
  intro i _
  rw [view_setIp inv.table neutral]
  rfl

theorem books_setIp (books : Books s h w) (e : Inode) {h' w' : Ip → Nat}
    (neutral : Neutral s ip e) (refs : ∀ jp, ((s.setIp ip e).itable jp).ref = ((h' + w') jp : Nat))
    (bounded : 0 < e.ref → e.inum < s.sb.ninodes) (live : 0 < e.ref → e.valid = true → e.dn.type ≠ 0)
    (held : ∀ jp, 0 < h' jp → (view s ((s.setIp ip e).itable jp).inum).type ≠ 0)
    (kept : ∀ i < s.sb.ninodes, (view s i).type ≠ 0 → (view s i).nlink = 0 →
      ∃ jp, 0 < h' jp ∧ ((s.setIp ip e).itable jp).inum = i ∧ ((s.setIp ip e).itable jp).valid = true) :
    Books (s.setIp ip e) h' w' ∧ nodes (s.setIp ip e) = nodes s := by
  have views := view_setIp books.inv.table neutral
  have cases : ∀ jp, Cached (s.setIp ip e) jp → (jp = ip ∧ 0 < e.ref ∧ e.valid = true) ∨ (jp ≠ ip ∧ Cached s jp) := by
    intro jp cached
    unfold Cached at cached
    by_cases here : jp = ip
    · rw [here, setIp_entry] at cached
      exact .inl ⟨here, cached⟩
    rw [setIp_other e here] at cached
    exact .inr ⟨here, cached⟩
  refine ⟨⟨inv_setIp books.inv neutral, ?_, refs, ?_, ?_, ?_, ?_⟩, nodes_setIp books.inv neutral⟩
  · intro jp cached
    rcases cases jp cached with ⟨rfl, active, valid⟩ | ⟨other, prev⟩
    · rw [setIp_entry, neutral.enters active valid, books_view books]
      rfl
    rw [setIp_other e other]
    exact books.sync jp prev
  · intro jp active
    by_cases here : jp = ip
    · rw [here, setIp_entry] at active ⊢
      exact bounded active
    rw [setIp_other e here] at active ⊢
    exact books.bounded jp active
  · intro jp cached
    rcases cases jp cached with ⟨rfl, active, valid⟩ | ⟨other, prev⟩
    · rw [setIp_entry]
      exact live active valid
    rw [setIp_other e other]
    exact books.live jp prev
  · intro jp settled
    rw [views]
    exact held jp settled
  intro i inside allocated unlinked
  rw [views] at allocated unlinked
  exact kept i inside allocated unlinked

theorem books_ref (books : Books s h w) (e : Inode) {h' w' : Ip → Nat}
    (num : e.inum = (s.itable ip).inum) (valid : e.valid = (s.itable ip).valid)
    (copy : e.dn = (s.itable ip).dn) (prev : 0 < (s.itable ip).ref)
    (mine : e.ref = ((h' + w') ip : Nat)) (others : ∀ jp, jp ≠ ip → (h' + w') jp = (h + w) jp)
    (settled : ∀ jp, 0 < h' jp → 0 < h jp ∨ (view s (s.itable jp).inum).type ≠ 0)
    (kept : ∀ i < s.sb.ninodes, (view s i).type ≠ 0 → (view s i).nlink = 0 →
      ∃ jp, 0 < h' jp ∧ (s.itable jp).inum = i ∧ (s.itable jp).valid = true) :
    Books (s.setIp ip e) h' w' ∧ nodes (s.setIp ip e) = nodes s := by
  have inums : ∀ jp, ((s.setIp ip e).itable jp).inum = (s.itable jp).inum := by
    intro jp
    by_cases here : jp = ip
    · rw [here, setIp_entry, num]
    · rw [setIp_other e here]
  have valids : ∀ jp, ((s.setIp ip e).itable jp).valid = (s.itable jp).valid := by
    intro jp
    by_cases here : jp = ip
    · rw [here, setIp_entry, valid]
    · rw [setIp_other e here]
  apply books_setIp books e
  · constructor
    · rw [mine]
      exact Int.natCast_nonneg _
    · intro _ jp other active same
      rw [num] at same
      exact other (books.inv.table.unique jp ip active prev same)
    · intro _ good
      rw [num]
      exact books.bounded ip prev
    · intro _ good
      rw [valid] at good
      rw [num, copy, view_cached books.inv.table ⟨prev, good⟩]
    intro cached _
    exact books.sync ip cached
  · intro jp
    by_cases here : jp = ip
    · rw [here, setIp_entry, mine]
    · rw [setIp_other e here, books.refs, others jp here]
  · intro _
    rw [num]
    exact books.bounded ip prev
  · intro _ good
    rw [valid] at good
    rw [copy]
    exact books.live ip ⟨prev, good⟩
  · intro jp pos
    rw [inums]
    rcases settled jp pos with old | allocated
    · exact books.held jp old
    · exact allocated
  intro i inside allocated unlinked
  obtain ⟨jp, pos, same, good⟩ := kept i inside allocated unlinked
  exact ⟨jp, pos, by rw [inums, same], by rw [valids, good]⟩

theorem steady_setIp {g : Ip → Nat} {e : Inode}
    (same : 0 < g ip → e.inum = (s.itable ip).inum ∧ ((s.itable ip).valid = true → e.valid = true)) :
    Steady g s (s.setIp ip e) := by
  refine ⟨rfl, ?_⟩
  intro jp pos
  by_cases here : jp = ip
  · rw [here] at pos ⊢
    rw [setIp_entry]
    exact same pos
  rw [setIp_other e here]
  exact ⟨rfl, id⟩

theorem books_got (books : Books s h w) {inum : Nat} {e : Inode} (lt : inum < s.sb.ninodes)
    (got : Got s inum ip e) : Books (s.setIp ip e) h (w + one ip) ∧ nodes (s.setIp ip e) = nodes s ∧
      Steady (h + w) s (s.setIp ip e) ∧ ((s.setIp ip e).itable ip).inum = inum := by
  have away : ∀ jp, jp ≠ ip → (h + (w + one ip)) jp = (h + w) jp := by
    intro jp other
    simp only [Pi.add_apply, one_other other, Nat.add_zero]
  have here : (h + (w + one ip)) ip = (h + w) ip + 1 := by
    simp only [Pi.add_apply, one_self, Nat.add_assoc]
  have neutral := neutral_got books.inv got
  cases got with
  | again active num =>
    have kept : Books (s.setIp ip ((s.itable ip).setRef ((s.itable ip).ref + 1))) h (w + one ip) ∧
        nodes (s.setIp ip ((s.itable ip).setRef ((s.itable ip).ref + 1))) = nodes s := by
      apply books_ref books ((s.itable ip).setRef ((s.itable ip).ref + 1)) rfl rfl rfl active _
        away (fun _ => .inl) books.kept
      rw [here, Int.natCast_add, ← books.refs]
      rfl
    refine ⟨kept.1, kept.2, steady_setIp (fun _ => ⟨rfl, id⟩), ?_⟩
    rw [setIp_entry]
    exact num
  | fresh empty absent =>
    have none : h ip = 0 ∧ w ip = 0 := by
      have total := books.refs ip
      rw [empty, Pi.add_apply] at total
      omega
    have settled : ∀ jp, 0 < h jp → jp ≠ ip := by
      rintro jp pos rfl
      omega
    have kept : Books (s.setIp ip { s.itable ip with inum := inum, ref := 1, valid := false }) h
          (w + one ip) ∧
        nodes (s.setIp ip { s.itable ip with inum := inum, ref := 1, valid := false }) = nodes s := by
      apply books_setIp books _ neutral
      · intro jp
        by_cases same : jp = ip
        · rw [same, setIp_entry, here, Pi.add_apply, none.1, none.2]
          rfl
        · rw [setIp_other _ same, away jp same, books.refs]
      · intro _
        exact lt
      · intro _ valid
        cases valid
      · intro jp pos
        rw [setIp_other _ (settled jp pos)]
        exact books.held jp pos
      intro i bounded allocated unlinked
      obtain ⟨jp, pos, same, good⟩ := books.kept i bounded allocated unlinked
      rw [← setIp_other _ (settled jp pos)] at same good
      exact ⟨jp, pos, same, good⟩
    refine ⟨kept.1, kept.2, steady_setIp (fun busy => absurd busy (by rw [Pi.add_apply]; omega)), ?_⟩
    rw [setIp_entry]

theorem books_iget (books : Books s h w) {inum : Nat} (lt : inum < s.sb.ninodes) : Ends (iget inum) s
      (fun ip t => Books t h (w + one ip) ∧ nodes t = nodes s ∧ Steady (h + w) s t ∧
        (t.itable ip).inum = inum) (fun msg => msg = "iget: no inodes") := by
  apply ends_mono (iget_spec s inum) _ (fun _ => And.left)
  rintro ip t ⟨e, got, rfl⟩
  exact books_got books lt got

theorem books_idup (books : Books s h w) (held : 0 < h ip ∨ 0 < w ip) : Ends (idup ip) s
      (fun jp t => jp = ip ∧ Books t h (w + one ip) ∧ nodes t = nodes s ∧ Steady (h + w) s t ∧
        (t.itable ip).inum = (s.itable ip).inum) (fun _ => False) := by
  have active := ref_pos books held
  apply modify_then
  exact ends_pure ⟨rfl, books_got books (books.bounded ip active) (Got.again active rfl)⟩

theorem books_locked (books : Books s h w) (active : 0 < (s.itable ip).ref) (locked : Bool) :
    Books (s.setIp ip ((s.itable ip).setLocked locked)) h w ∧
      nodes (s.setIp ip ((s.itable ip).setLocked locked)) = nodes s ∧
      Steady (h + w) s (s.setIp ip ((s.itable ip).setLocked locked)) := by
  have kept : Books (s.setIp ip ((s.itable ip).setLocked locked)) h w ∧
      nodes (s.setIp ip ((s.itable ip).setLocked locked)) = nodes s := by
    apply books_ref books ((s.itable ip).setLocked locked) rfl rfl rfl active _ (fun _ _ => rfl)
      (fun _ => .inl) books.kept
    rw [← books.refs]
    rfl
  exact ⟨kept.1, kept.2, steady_setIp (fun _ => ⟨rfl, id⟩)⟩

def Inode.readIn (e : Inode) (dn : Dinode) : Inode :=
  { e with locked := true, valid := true, dn := dn }

theorem books_read (books : Books s h w) {dn : Dinode} (active : 0 < (s.itable ip).ref)
    (neutral : Neutral s ip ((s.itable ip).readIn dn)) (typed : dn.type ≠ 0) :
    Books (s.setIp ip ((s.itable ip).readIn dn)) h w ∧ nodes (s.setIp ip ((s.itable ip).readIn dn)) = nodes s := by
  have inums : ∀ jp, ((s.setIp ip ((s.itable ip).readIn dn)).itable jp).inum = (s.itable jp).inum := by
    intro jp
    by_cases here : jp = ip
    · rw [here, setIp_entry]
      rfl
    · rw [setIp_other _ here]
  apply books_setIp books _ neutral
  · intro jp
    by_cases here : jp = ip
    · rw [here, setIp_entry, ← books.refs]
      rfl
    · rw [setIp_other _ here, books.refs]
  · intro _
    exact books.bounded ip active
  · intro _ _
    exact typed
  · intro jp pos
    rw [inums]
    exact books.held jp pos
  intro i inside allocated unlinked
  obtain ⟨jp, pos, same, good⟩ := books.kept i inside allocated unlinked
  refine ⟨jp, pos, by rw [inums, same], ?_⟩
  by_cases here : jp = ip
  · rw [here, setIp_entry]
    rfl
  · rw [setIp_other _ here, good]

theorem books_ilock (books : Books s h w) (held : 0 < h ip ∨ 0 < w ip) : Ends (ilock ip) s
      (fun _ t => Books t h w ∧ nodes t = nodes s ∧ Steady (h + w) s t ∧ Cached t ip ∧
        (nodes s (s.itable ip).inum).type ≠ 0) (UntypedIf ((nodes s (s.itable ip).inum).type = 0)) := by
  have active := ref_pos books held
  have inside := books.bounded ip active
  apply get_then
  apply ends_ite
  · intro _
    exact ends_throw (fun same => absurd same (by decide))
  intro _
  apply ends_ite
  · intro _
    exact ends_throw (fun same => absurd same (by decide))
  intro _
  apply ends_ite
  · intro valid
    obtain ⟨kept, same, steady⟩ := books_locked books active true
    refine ends_known rfl ⟨kept, same, steady, ?_, ?_⟩
    · change Cached (s.setIp ip ((s.itable ip).setLocked true)) ip
      unfold Cached
      rw [setIp_entry]
      exact ⟨active, valid⟩
    rw [nodes_type s inside, view_cached books.inv.table ⟨active, valid⟩]
    exact books.live ip ⟨active, valid⟩
  intro invalid
  have disk := books_view books (s.itable ip).inum
  apply modify_then
  apply ends_ite
  · intro untyped
    refine ends_throw (fun _ => ?_)
    rw [nodes_type s inside, disk]
    exact untyped
  intro typed
  have neutral : Neutral s ip ((s.itable ip).readIn (getDinode s.sb s.disk
      (s.itable ip).inum)) := by
    constructor
    · exact books.inv.table.nonneg ip
    · intro _ jp other busy same
      exact other (books.inv.table.unique jp ip busy active same)
    · intro _ _
      exact inside
    · intro _ _
      exact disk.symm
    intro cached
    exact absurd cached.2 invalid
  obtain ⟨kept, same⟩ := books_read books active neutral typed
  refine ends_pure ⟨kept, same, steady_setIp (fun _ => ⟨rfl, fun _ => rfl⟩), ?_, ?_⟩
  · unfold Cached
    rw [setIp_entry]
    exact ⟨active, rfl⟩
  rw [nodes_type s inside, disk]
  exact typed

theorem books_iunlock (books : Books s h w) (ip : Ip) :
    Ends (iunlock ip) s (fun _ t => Books t h w ∧ nodes t = nodes s ∧ Steady (h + w) s t)
      (fun msg => msg = "iunlock") := by
  apply get_then
  apply ends_ite
  · intro _
    exact ends_throw rfl
  intro fine
  have active : 0 < (s.itable ip).ref := by omega
  obtain ⟨kept, same, steady⟩ := books_locked books active false
  exact ends_known rfl ⟨kept, same, steady⟩

theorem books_stays (books : Books s h (w + one ip)) : ¬ iputFrees (s.itable ip) := by
  have total := books.refs ip
  simp only [Pi.add_apply, one_self] at total
  have active : 0 < (s.itable ip).ref := by omega
  rintro ⟨last, valid, unlinked⟩
  have cached : Cached s ip := ⟨active, valid⟩
  have shown := view_cached books.inv.table cached
  obtain ⟨jp, pos, num, _⟩ := books.kept _ (books.bounded ip active)
    (by rw [shown]; exact books.live ip cached) (by rw [shown, unlinked])
  have same := books.inv.table.unique jp ip (ref_pos books (.inl pos)) active num
  rw [same] at pos
  omega

theorem books_iput_work (books : Books s h (w + one ip)) :
    Ends (iput ip) s (fun _ t => Books t h w ∧ nodes t = nodes s ∧ Steady (h + w) s t) (fun _ => False) := by
  have total := books.refs ip
  simp only [Pi.add_apply, one_self] at total
  have active : 0 < (s.itable ip).ref := by omega
  apply ends_known (iput_stays (books_stays books))
  have kept : Books (s.setIp ip ((s.itable ip).setRef ((s.itable ip).ref - 1))) h w ∧
      nodes (s.setIp ip ((s.itable ip).setRef ((s.itable ip).ref - 1))) = nodes s := by
    apply books_ref books ((s.itable ip).setRef ((s.itable ip).ref - 1)) rfl rfl rfl active _ _
      (fun _ => .inl) books.kept
    · change (s.itable ip).ref - 1 = _
      rw [Pi.add_apply]
      omega
    intro jp other
    simp only [Pi.add_apply, one_other other, Nat.add_zero]
  exact ⟨kept.1, kept.2, steady_setIp (fun _ => ⟨rfl, id⟩)⟩

theorem books_settle (books : Books s h (w + one ip))
    (allocated : (nodes s (s.itable ip).inum).type ≠ 0) : Books s (h + one ip) w where
  inv := books.inv
  sync := books.sync
  refs := by
    intro jp
    rw [books.refs]
    simp only [Pi.add_apply]
    omega
  bounded := books.bounded
  live := books.live
  held := by
    intro jp pos
    by_cases here : jp = ip
    · rw [here]
      have active : 0 < (s.itable ip).ref := by
        apply ref_pos books
        right
        rw [Pi.add_apply, one_self]
        omega
      rwa [nodes_type s (books.bounded ip active)] at allocated
    rw [Pi.add_apply, one_other here] at pos
    exact books.held jp pos
  kept := by
    intro i inside typed unlinked
    obtain ⟨jp, pos, rest⟩ := books.kept i inside typed unlinked
    refine ⟨jp, ?_, rest⟩
    rw [Pi.add_apply]
    omega

theorem books_unlinked (books : Books s h w) (active : 0 < (s.itable ip).ref)
    (allocated : (nodes s (s.itable ip).inum).type ≠ 0) (bare : (nodes s (s.itable ip).inum).nlink = 0) : 0 < h ip := by
  have inside := books.bounded ip active
  rw [nodes_type s inside] at allocated
  rw [nodes_nlink s inside allocated] at bare
  obtain ⟨jp, pos, num, _⟩ := books.kept _ inside allocated bare
  have same := books.inv.table.unique jp ip (ref_pos books (.inl pos)) active num
  rwa [same] at pos

theorem books_unsettle (books : Books s (h + one ip) w)
    (linked : (nodes s (s.itable ip).inum).nlink = 0 → 0 < h ip) : Books s h (w + one ip) where
  inv := books.inv
  sync := books.sync
  refs := by
    intro jp
    rw [books.refs]
    simp only [Pi.add_apply]
    omega
  bounded := books.bounded
  live := books.live
  held := by
    intro jp pos
    apply books.held
    rw [Pi.add_apply]
    omega
  kept := by
    intro i inside typed unlinked
    obtain ⟨jp, pos, num, valid⟩ := books.kept i inside typed unlinked
    refine ⟨jp, ?_, num, valid⟩
    by_cases here : jp = ip
    · rw [here] at num ⊢
      apply linked
      rw [num, nodes_nlink s inside typed, unlinked]
    · rwa [Pi.add_apply, one_other here] at pos

theorem view_freed (books : Books s h w) {t : Fs} (freed : Freed s ip t)
    (active : 0 < (s.itable ip).ref) {i : Nat} (lt : i < s.sb.ninodes) :
    view t i = update (view s) (s.itable ip).inum (s.itable ip).dn.dead i := by
  have others : ∀ jp, jp ≠ ip → t.itable jp = s.itable jp := by
    intro jp other
    rw [freed.entry, update_of_ne other]
  have gone : ¬ Cached t ip := by
    unfold Cached
    rw [freed.entry, update_self]
    exact fun never => absurd never.1 (lt_irrefl 0)
  have disk := freed.dinodes i lt
  by_cases here : i = (s.itable ip).inum
  · rw [here] at disk ⊢
    rw [update_self] at disk ⊢
    rw [← disk]
    apply view_uncached
    intro jp cached same
    have other : jp ≠ ip := by
      rintro rfl
      exact gone cached
    unfold Cached at cached
    rw [others jp other] at cached same
    exact other (books.inv.table.unique jp ip cached.1 active same)
  rw [update_of_ne here] at disk ⊢
  rcases view_cases freed.inv.table i with ⟨jp, cached, num, value⟩ | ⟨_, value⟩
  · have other : jp ≠ ip := by
      rintro rfl
      exact gone cached
    unfold Cached at cached
    rw [others jp other] at cached num value
    rw [value, ← view_cached books.inv.table cached, num]
  · rw [value, disk, books_view books]

theorem books_iput (books : Books s (h + one ip) w) (idle : w ip = 0) : Ends (iput ip) s
      (fun _ t => Books t h w ∧ Steady (h + w) s t ∧
        (nodes t = nodes s ∨ (h ip = 0 ∧ (nodes s (s.itable ip).inum).type ≠ 0 ∧
          (nodes s (s.itable ip).inum).nlink = 0 ∧ nodes t = update (nodes s) (s.itable ip).inum .free)))
      (fun msg => msg = "deadlock") := by
  have total := books.refs ip
  simp only [Pi.add_apply, one_self, idle] at total
  have active : 0 < (s.itable ip).ref := by omega
  have inside := books.bounded ip active
  have drop : ∀ jp, jp ≠ ip → (h + one ip) jp = h jp := by
    intro jp other
    rw [Pi.add_apply, one_other other, Nat.add_zero]
  apply ends_better (iput_spec books.inv (books.live ip)) _
  rintro _ t (⟨frees, freed⟩ | ⟨stays, rfl⟩)
  · obtain ⟨last, valid, unlinked⟩ := frees
    have lone : h ip = 0 := by omega
    have mine : Cached s ip := ⟨active, valid⟩
    have shown := view_cached books.inv.table mine
    have views := fun i below => view_freed books freed active (i := i) below
    have others : ∀ jp, jp ≠ ip → t.itable jp = s.itable jp := by
      intro jp other
      rw [freed.entry, update_of_ne other]
    have empty : (t.itable ip).ref = 0 := by
      rw [freed.entry, update_self]
      rfl
    have inums : ∀ jp, (t.itable jp).inum = (s.itable jp).inum := by
      intro jp
      by_cases here : jp = ip
      · rw [here, freed.entry, update_self]
        rfl
      · rw [others jp here]
    have apart : ∀ jp, jp ≠ ip → 0 < (s.itable jp).ref → (s.itable jp).inum ≠ (s.itable ip).inum := by
      intro jp other busy same
      exact other (books.inv.table.unique jp ip busy active same)
    have settled : ∀ jp, 0 < h jp → jp ≠ ip := by
      rintro jp pos rfl
      omega
    have steady : Steady (h + w) s t := by
      refine ⟨freed.sb, ?_⟩
      intro jp pos
      have other : jp ≠ ip := by
        rintro rfl
        rw [Pi.add_apply] at pos
        omega
      rw [others jp other]
      exact ⟨rfl, id⟩
    refine ⟨⟨freed.inv, ?_, ?_, ?_, ?_, ?_, ?_⟩, steady, .inr ⟨lone, ?_, ?_, ?_⟩⟩
    · intro jp cached
      have other : jp ≠ ip := by
        rintro rfl
        have := cached.1
        omega
      unfold Cached at cached
      rw [others jp other] at cached ⊢
      rw [freed.dinodes _ (books.bounded jp cached.1), update_of_ne (apart jp other cached.1)]
      exact books.sync jp cached
    · intro jp
      by_cases here : jp = ip
      · rw [here, empty, Pi.add_apply, lone, idle]
        rfl
      · rw [others jp here, books.refs, Pi.add_apply, drop jp here, Pi.add_apply]
    · intro jp busy
      have other : jp ≠ ip := by
        rintro rfl
        omega
      rw [inums, freed.sb]
      rw [others jp other] at busy
      exact books.bounded jp busy
    · intro jp cached
      have other : jp ≠ ip := by
        rintro rfl
        have := cached.1
        omega
      unfold Cached at cached
      rw [others jp other] at cached ⊢
      exact books.live jp cached
    · intro jp pos
      have other := settled jp pos
      have busy : 0 < (s.itable jp).ref :=
        ref_pos books (.inl (by rw [drop jp other]; exact pos))
      rw [inums, views _ (books.bounded jp busy), update_of_ne (apart jp other busy)]
      exact books.held jp (by rw [drop jp other]; exact pos)
    · intro i below typed bare
      rw [freed.sb] at below
      by_cases here : i = (s.itable ip).inum
      · rw [views i below, here, update_self] at typed
        exact absurd rfl typed
      rw [views i below, update_of_ne here] at typed bare
      obtain ⟨jp, pos, num, good⟩ := books.kept i below typed bare
      have other : jp ≠ ip := by
        rintro rfl
        exact here num.symm
      rw [drop jp other] at pos
      refine ⟨jp, pos, by rw [inums, num], by rw [others jp other, good]⟩
    · rw [nodes_type s inside, shown]
      exact books.live ip mine
    · rw [nodes_nlink s inside (by rw [shown]; exact books.live ip mine), shown, unlinked]
    funext i
    unfold nodes
    rw [freed.sb]
    by_cases below : i < s.sb.ninodes
    · rw [if_pos below, views i below]
      by_cases here : i = (s.itable ip).inum
      · rw [here, update_self, update_self, nodeOf_free rfl]
      rw [update_of_ne here, update_of_ne here, if_pos below]
      by_cases typed : (view s i).type = 0
      · rw [nodeOf_free typed, nodeOf_free typed]
      apply nodeOf_congr
      exact (contents_of_data books.inv.owned freed.data below typed).2
    have other : i ≠ (s.itable ip).inum := by omega
    rw [if_neg below, update_of_ne other, if_neg below]
  have kept : Books (s.setIp ip ((s.itable ip).setRef ((s.itable ip).ref - 1))) h w ∧
      nodes (s.setIp ip ((s.itable ip).setRef ((s.itable ip).ref - 1))) = nodes s := by
    apply books_ref books ((s.itable ip).setRef ((s.itable ip).ref - 1)) rfl rfl rfl active
    · change (s.itable ip).ref - 1 = _
      rw [Pi.add_apply]
      omega
    · intro jp other
      rw [Pi.add_apply, Pi.add_apply, drop jp other]
    · intro jp pos
      left
      rw [Pi.add_apply]
      omega
    intro i below typed bare
    obtain ⟨jp, pos, num, good⟩ := books.kept i below typed bare
    by_cases here : jp = ip
    · subst jp
      refine ⟨ip, ?_, num, good⟩
      -- otherwise this was the last reference to an unlinked inode
      by_contra none
      have cached : Cached s ip := ⟨active, good⟩
      have shown := view_cached books.inv.table cached
      apply stays
      refine ⟨by omega, good, ?_⟩
      rw [← shown, num]
      exact bare
    rw [drop jp here] at pos
    exact ⟨jp, pos, num, good⟩
  exact ⟨kept.1, steady_setIp (fun _ => ⟨rfl, id⟩), .inl kept.2⟩

/- What writes nothing to the disk. -/

def Unchanged (s t : Fs) : Prop := nodes t = nodes s ∧ t.disk = s.disk

theorem unchanged_trans {t u : Fs} (first : Unchanged s t) (snd : Unchanged t u) :
    Unchanged s u := ⟨snd.1.trans first.1, snd.2.trans first.2⟩

theorem ilock_disk (s : Fs) (ip : Ip) : Ends (ilock ip) s (fun _ t => t.disk = s.disk) (fun _ => True) := by
  apply get_then
  apply ends_ite
  · exact fun _ => ends_throw trivial
  intro _
  apply ends_ite
  · exact fun _ => ends_throw trivial
  intro _
  apply ends_ite
  · exact fun _ => ends_known rfl rfl
  intro _
  apply modify_then
  apply ends_ite
  · exact fun _ => ends_throw trivial
  · exact fun _ => ends_pure rfl

theorem iunlock_disk (s : Fs) (ip : Ip) : Ends (iunlock ip) s (fun _ t => t.disk = s.disk) (fun _ => True) := by
  apply get_then
  apply ends_ite
  · exact fun _ => ends_throw trivial
  · exact fun _ => ends_known rfl rfl

theorem idup_disk (s : Fs) (ip : Ip) : Ends (idup ip) s (fun _ t => t.disk = s.disk) (fun _ => True) := by
  apply modify_then
  exact ends_pure rfl

theorem iput_disk (books : Books s h (w + one ip)) : Ends (iput ip) s (fun _ t => t.disk = s.disk) (fun _ => True) :=
  ends_known (iput_stays (books_stays books)) rfl

end

end Xv6Fs
