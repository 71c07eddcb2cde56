import Xv6.InodeOps

/- One entry of the inode table, its inode on the disk, and what every process holds of it. -/
namespace Xv6Conc
open Xv6 Xv6Fs Threads Function

section
variable {T : Type} [Fintype T]

def Wiping (c : T → Cell) : Prop := ∃ t, (c t).put = some .cleared ∨ (c t).put = some .flushed

/-- An entry e with the inode d on the disk. Process t holds c t of it, and n open files
    refer to it, some of them at descriptors of t if via t. -/
structure CellOk (e : Entry T) (d : Dinode) (c : T → Cell) (via : T → Prop) (n : Nat) : Prop where
  refs : e.ref = ((∑ t, (c t).refs) + n : Nat)
  holder : ∀ t, e.holder = some t ↔ (c t).held ≠ .no
  has : ∀ t, (c t).held ≠ .no → 0 < (c t).refs ∨ via t
  open_file : ∀ t, via t → 0 < n
  dirty : ∀ t, (c t).dirty = true → (c t).held = .loaded
  loaded : ∀ t, (c t).held = .loaded → e.valid = true
  put : ∀ t p, (c t).put = some p → 0 < (c t).refs ∧ if p = .expired then (c t).held = .no
    else (c t).held = .loaded ∧ e.dn.nlink = 0 ∧ (p = .flushed ∨ d.nlink = 0) ∧
      (p = .tested ∨ e.dn.type = 0)
  typed : 0 < e.ref → e.valid = true → Wiping c ∨ e.dn.type ≠ 0 ∧ d.type = e.dn.type
  synced : 0 < e.ref → e.valid = true → Wiping c ∨ d = e.dn ∨ ∃ t, (c t).dirty = true

variable {e : Entry T} {d : Dinode} {c : T → Cell} {via : T → Prop} {n : Nat} {t : T}

theorem refs_update [DecidableEq T] (x : Cell) : ∑ u, (update c t x u).refs + (c t).refs = ∑ u, (c u).refs + x.refs :=
  sum_update c (fun _ cell => cell.refs) t x

variable (ok : CellOk e d c via n)
include ok

theorem cell_alone {u : T} (mine : (c t).held ≠ .no) (other : (c u).held ≠ .no) : t = u := by
  have first := (ok.holder t).mpr mine
  rw [(ok.holder u).mpr other] at first
  exact (Option.some.inj first).symm

theorem cell_wiping (wiping : Wiping c) :
    ∃ u, (c u).held = .loaded ∧ ((c u).put = some .cleared ∨ (c u).put = some .flushed) := by
  obtain ⟨u, phase⟩ := wiping
  refine ⟨u, ?_, phase⟩
  rcases phase with phase | phase
  · exact (by simpa using (ok.put u _ phase).2 : _ ∧ _).1
  · exact (by simpa using (ok.put u _ phase).2 : _ ∧ _).1

theorem cell_quiet (mine : (c t).held ≠ .no) (calm : (c t).put = none ∨ (c t).put = some .tested) : ¬ Wiping c := by
  intro wiping
  obtain ⟨u, held, phase⟩ := cell_wiping ok wiping
  have same := cell_alone ok (t := t) (u := u) mine (by simp [held])
  subst u
  rcases calm with calm | calm <;> simp [calm] at phase

theorem cell_typed (mine : (c t).held = .loaded) (used : 0 < e.ref)
    (calm : (c t).put = none ∨ (c t).put = some .tested) : e.dn.type ≠ 0 ∧ d.type = e.dn.type :=
  (ok.typed used (ok.loaded t mine)).resolve_left (cell_quiet ok (by simp [mine]) calm)

theorem cell_ref_pos (has : 0 < (c t).refs ∨ via t) : 0 < e.ref := by
  have sum := ok.refs
  rcases has with mine | file
  · have part := le_sum (fun u => (c u).refs) t
    omega
  have part := ok.open_file t file
  omega

theorem cell_free (free : e.holder = none) (u : T) : (c u).held = .no := by
  by_contra held
  have taken := (ok.holder u).mpr held
  simp [free] at taken

theorem cell_locked (mine : (c t).held = .locked) : (c t).put = none := by
  cases phase : (c t).put with
  | none => rfl
  | some p =>
    have held := (ok.put t p phase).2
    rw [mine] at held
    split at held <;> simp at held

theorem cell_dead (dead : ¬ 0 < e.ref) (d' : Dinode) : CellOk e d' c via n :=
  { ok with
    put := fun t p phase => absurd (cell_ref_pos ok (.inl (ok.put t p phase).1)) dead
    typed := fun live => absurd live dead
    synced := fun live => absurd live dead }

theorem cell_claim (free : d.type = 0) {d' : Dinode} (unlinked : d'.nlink = 0) : CellOk e d' c via n := by
  have wiping : 0 < e.ref → e.valid = true → Wiping c := by
    intro live valid
    rcases ok.typed live valid with wiping | ⟨used, same⟩
    · exact wiping
    · exact absurd (same.symm.trans free) used
  exact { ok with
    put := by
      intro t p phase
      have old := ok.put t p phase
      split at old <;> simp_all
    typed := fun live valid => .inl (wiping live valid)
    synced := fun live valid => .inl (wiping live valid) }

theorem cell_empty (empty : e.ref = 0) :
    n = 0 ∧ ∀ u, (c u).refs = 0 ∧ (c u).held = .no ∧ ¬ via u ∧ (c u).put = none := by
  have sum := ok.refs
  have files : n = 0 := by omega
  refine ⟨files, ?_⟩
  intro u
  have unused : ¬ (0 < (c u).refs ∨ via u) := by
    intro has
    have live := cell_ref_pos ok has
    omega
  have held : (c u).held = .no := by
    by_contra held
    exact unused (ok.has u held)
  refine ⟨by omega, held, fun file => unused (.inr file), ?_⟩
  cases phase : (c u).put with
  | none => rfl
  | some p => exact absurd (.inl (ok.put u p phase).1) unused

variable [DecidableEq T]

theorem cell_ref_two {u : T} (other : u ≠ t) (mine : 0 < (c t).refs) (has : 0 < (c u).refs ∨ via u) : 1 < e.ref := by
  have sum := ok.refs
  rcases has with theirs | file
  · have part := two_le_sum (fun v => (c v).refs) other
    omega
  have part := le_sum (fun v => (c v).refs) t
  have files := ok.open_file u file
  omega

theorem cell_refs {ref : Int} {refs : Nat} {via' : T → Prop} {n' : Nat}
    (count : ref + (c t).refs + n = e.ref + refs + n') (others : ∀ u, u ≠ t → (via' u ↔ via u))
    (has : (c t).held ≠ .no → 0 < refs ∨ via' t) (files : ∀ u, via' u → 0 < n') (calm : (c t).put = none)
    (used : 0 < ref → 0 < e.ref) : CellOk (e.setRef ref) d (update c t ((c t).setRefs refs)) via' n' := by
  have sum := refs_update (c := c) (t := t) ((c t).setRefs refs)
  have same : ∀ u, (update c t ((c t).setRefs refs) u).held = (c u).held ∧
      (update c t ((c t).setRefs refs) u).dirty = (c u).dirty ∧
      (update c t ((c t).setRefs refs) u).put = (c u).put := by
    intro u
    by_cases mine : u = t
    · subst u
      simp [Cell.setRefs]
    · simp [mine]
  have wiping : Wiping (update c t ((c t).setRefs refs)) ↔ Wiping c := by
    simp only [Wiping, same]
  refine ⟨?_, ?_, ?_, files, ?_, ?_, ?_, ?_, ?_⟩
  · have old := ok.refs
    simp only [Cell.setRefs, Entry.setRef] at sum ⊢
    omega
  · intro u
    rw [(same u).1]
    exact ok.holder u
  · intro u held
    rw [(same u).1] at held
    by_cases mine : u = t
    · subst u
      simpa [Cell.setRefs] using has held
    rw [update_of_ne mine, others u mine]
    exact ok.has u held
  · intro u dirty
    rw [(same u).2.1] at dirty
    rw [(same u).1]
    exact ok.dirty u dirty
  · intro u held
    rw [(same u).1] at held
    exact ok.loaded u held
  · intro u p phase
    rw [(same u).2.2] at phase
    have mine : u ≠ t := by
      intro mine
      subst u
      rw [calm] at phase
      simp at phase
    rw [update_of_ne mine]
    exact ok.put u p phase
  · intro live valid
    rw [wiping]
    exact ok.typed (used live) valid
  intro live valid
  rw [wiping]
  simp only [same]
  exact ok.synced (used live) valid

theorem cell_lock (free : e.holder = none) (has : 0 < (c t).refs ∨ via t) (calm : (c t).put = none) :
    CellOk (e.setHolder (some t)) d (update c t ((c t).setHeld .locked)) via n := by
  have nobody := cell_free ok free
  have sum := refs_update (c := c) (t := t) ((c t).setHeld .locked)
  cases ok
  constructor <;> simp only [Cell.setHeld, Entry.setHolder, Wiping, update_apply] at * <;> grind

theorem cell_load (mine : (c t).held = .locked) (calm : (c t).put = none)
    (valid : e.valid = true) : CellOk e d (update c t ((c t).setHeld .loaded)) via n := by
  have sum := refs_update (c := c) (t := t) ((c t).setHeld .loaded)
  have alone := fun u => cell_alone ok (t := t) (u := u) (by simp [mine])
  cases ok
  constructor <;> simp only [Cell.setHeld, Wiping, update_apply] at * <;> grind

theorem cell_read (mine : (c t).held = .locked) (calm : (c t).put = none) (used : d.type ≠ 0) :
    CellOk (e.readIn d) d (update c t ((c t).setHeld .loaded)) via n := by
  have sum := refs_update (c := c) (t := t) ((c t).setHeld .loaded)
  have alone := fun u => cell_alone ok (t := t) (u := u) (by simp [mine])
  cases ok
  constructor <;> simp only [Cell.setHeld, Entry.readIn, Wiping, update_apply] at * <;> grind

theorem cell_unlock (mine : (c t).held = .loaded) (calm : (c t).put = none) (clean : (c t).dirty = false) :
    CellOk (e.setHolder none) d (update c t ((c t).setHeld .no)) via n := by
  have sum := refs_update (c := c) (t := t) ((c t).setHeld .no)
  have alone := fun u => cell_alone ok (t := t) (u := u) (by simp [mine])
  cases ok
  constructor <;> simp only [Cell.setHeld, Entry.setHolder, Wiping, update_apply] at * <;> grind

theorem cell_store (mine : (c t).held = .loaded) (calm : (c t).put = none) {dn : Dinode}
    (type : dn.type = e.dn.type) : CellOk (e.setDn dn) d (update c t ((c t).setDirty true)) via n := by
  have sum := refs_update (c := c) (t := t) ((c t).setDirty true)
  have alone := fun u => cell_alone ok (t := t) (u := u) (by simp [mine])
  cases ok
  constructor <;> simp only [Cell.setDirty, Entry.setDn, Wiping, update_apply] at * <;> grind

theorem cell_write (mine : (c t).held = .loaded) (calm : (c t).put = none ∨ (c t).put = some .tested)
    {dn : Dinode} (type : dn.type = e.dn.type) (nlink : dn.nlink = e.dn.nlink) :
    CellOk (e.setDn dn) dn (update c t ((c t).setDirty false)) via n := by
  have sum := refs_update (c := c) (t := t) ((c t).setDirty false)
  have alone := fun u => cell_alone ok (t := t) (u := u) (by simp [mine])
  cases ok
  constructor <;> simp only [Cell.setDirty, Entry.setDn, Wiping, update_apply] at * <;> grind

theorem cell_iupdate (mine : (c t).held = .loaded) (calm : (c t).put = none ∨ (c t).put = some .cleared) :
    CellOk e e.dn (update c t { c t with dirty := false, put := (c t).put.map fun _ => .flushed }) via n := by
  have sum := refs_update (c := c) (t := t)
    { c t with dirty := false, put := (c t).put.map fun _ => .flushed }
  have alone := fun u => cell_alone ok (t := t) (u := u) (by simp [mine])
  cases ok
  constructor <;> simp only [Wiping, update_apply] at * <;> grind

theorem cell_test (free : e.holder = none) (frees : e.Frees) (mine : 0 < (c t).refs) :
    CellOk (e.setHolder (some t)) d (update c t { c t with held := .loaded, put := some .tested }) via n := by
  have nobody := cell_free ok free
  have sum := refs_update (c := c) (t := t) { c t with held := .loaded, put := some .tested }
  cases ok
  obtain ⟨single, valid, nolink⟩ := frees
  constructor <;> simp only [Entry.setHolder, Wiping, update_apply] at * <;> grind

theorem cell_clearType (mine : (c t).put = some .tested) :
    CellOk (e.setDn (e.dn.setType 0)) d (update c t ((c t).setPut (some .cleared))) via n := by
  have sum := refs_update (c := c) (t := t) ((c t).setPut (some .cleared))
  cases ok
  constructor <;>
    simp only [Cell.setPut, Entry.setDn, Dinode.setType, Wiping, update_apply] at * <;> grind

theorem cell_expire (mine : (c t).put = some .flushed) :
    CellOk e.expire d (update c t { c t with held := .no, dirty := false, put := some .expired }) via n := by
  have sum := refs_update (c := c) (t := t) { c t with held := .no, dirty := false, put := some .expired }
  have alone := fun u => cell_alone ok (t := t) (u := u) (by have := ok.put t _ mine; simp_all)
  cases ok
  constructor <;> simp only [Entry.expire, Wiping, update_apply] at * <;> grind

theorem cell_drop (mine : (c t).put = some .expired) : CellOk (e.setRef (e.ref - 1)) d
      (update c t { c t with refs := (c t).refs - 1, put := none }) via n := by
  have sum := refs_update (c := c) (t := t) { c t with refs := (c t).refs - 1, put := none }
  cases ok
  constructor <;> simp only [Entry.setRef, Wiping, update_apply] at * <;> grind

theorem cell_recycle (empty : e.ref = 0) (i : Ino) (d' : Dinode) :
    CellOk (e.recycle i) d' (update c t ((c t).setRefs ((c t).refs + 1))) via n := by
  obtain ⟨files, nothing⟩ := cell_empty ok empty
  have sum := refs_update (c := c) (t := t) ((c t).setRefs ((c t).refs + 1))
  cases ok
  constructor <;>
    simp only [Cell.setRefs, Entry.recycle, Wiping, update_apply] at * <;> grind

end

end Xv6Conc
